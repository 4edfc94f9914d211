import Renaming.Main
import Renaming.Proofs.ClassFile.RoundTrip
import Renaming.Proofs.OverrideGroups.Partition
import Renaming.Proofs.Rewrite.References
import Renaming.Signature.Parse
import Renaming.Proofs.Descriptor
import Renaming.Proofs.Signature.Declaration
import Renaming.Proofs.Batch.Files
import Renaming.Proofs.Batch.Identity
import Renaming.Proofs.Rewrite.ClassNames
import Renaming.Proofs.Hierarchy.Declarers
import Renaming.Proofs.Rewrite.Agreement
import Renaming.Proofs.Hierarchy.Steps
import Renaming.Proofs.Hierarchy.Strict
import Renaming.Proofs.Rewrite.Explore
import Renaming.Proofs.Batch.Steps
import Renaming.Proofs.Batch.Strict
import Renaming.Proofs.Hierarchy.Descendants
import Renaming.Proofs.OverrideGroups.Implementors
import Renaming.Proofs.Batch.Order
import Renaming.Proofs.ClassFile.Budget
import Renaming.Proofs.ClassFile.Repaid.Annotation
import Renaming.Proofs.ClassFile.Repaid.Attribute
import Renaming.Proofs.ClassFile.Repaid.Class
import Renaming.Proofs.Hierarchy.Memory
import Renaming.Proofs.Rewrite.Collision
import Renaming.Proofs.Signature.Erasure
import Renaming.Proofs.ClassFile.Placement
import Renaming.Proofs.Rewrite.Skeleton
import Renaming.Proofs.Rewrite.Kept
import Renaming.Proofs.ClassFile.Carried
import Renaming.Proofs.Rewrite.Landing
import Renaming.Proofs.ClassFile.SelfDelimiting
import Renaming.Proofs.ClassFile.Tiling
import Renaming.Proofs.Hierarchy.Duality
import Renaming.Proofs.Hierarchy.Owners
import Renaming.Proofs.Descriptor.Functor
import Renaming.Proofs.RenameTable.Format
import Renaming.Proofs.RenameTable.Consistent
import Renaming.Proofs.RenameTable.Order
import Renaming.Proofs.Signature.Substitution
import Renaming.Proofs.ClassFile.Payload
import Renaming.Proofs.ClassFile.Limit
import Renaming.Proofs.Rewrite.Nested
import Renaming.Proofs.Rewrite.Packages
import Renaming.Proofs.DisjointSet.History
import Renaming.Proofs.ClassFile.Requests
