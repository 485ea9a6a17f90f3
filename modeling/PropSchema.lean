import PropSchema.Main
import PropSchema.Tree.Grammar
import PropSchema.Proofs.Schema.Widening
import PropSchema.Proofs.Schema.CutOff
import PropSchema.Proofs.Binding.Run
import PropSchema.Proofs.Binding.Inheritance
import PropSchema.Proofs.Binding.Parametric
import PropSchema.Proofs.Schema.Embedding
import PropSchema.Proofs.Schema.Termination
import PropSchema.Proofs.Schema.Recording
import PropSchema.Proofs.Binding.Confinement
import PropSchema.Proofs.Binding.Depth
import PropSchema.Proofs.Binding.Repetition
import PropSchema.Proofs.Binding.Sites
import PropSchema.Proofs.Component.Arena
import PropSchema.Proofs.Component.Repetition
import PropSchema.Proofs.Binding.History
import PropSchema.Proofs.Binding.Order
import PropSchema.Proofs.Component.Order
import PropSchema.Proofs.Schema.Shape
import PropSchema.Proofs.Disk.Places
import PropSchema.Proofs.Component.Walk
import PropSchema.Proofs.Module.Loading
import PropSchema.Proofs.Session.History
import PropSchema.Proofs.Config.Commented
import PropSchema.Proofs.Config.Comments
import PropSchema.Proofs.Schema.Document
import PropSchema.Proofs.Session.Reloading
import PropSchema.Proofs.Module.Sources
import PropSchema.Proofs.Schema.Pruning
import PropSchema.Proofs.Schema.Expansion
import PropSchema.Proofs.Component.Forwarding
import PropSchema.Proofs.Component.Options
import PropSchema.Proofs.Component.Names
import PropSchema.Proofs.Component.AliasChain
import PropSchema.Proofs.Ty.UnionLaws
import PropSchema.Proofs.Component.Wrappers
import PropSchema.Proofs.Module.Namespaces
import PropSchema.Proofs.Module.TypeNames
import PropSchema.Proofs.Schema.Key
import PropSchema.Proofs.Ty.Members
import PropSchema.Proofs.Binding.Utility
import PropSchema.Proofs.Ty.Parentheses
import PropSchema.Proofs.Path.Joining
import PropSchema.Proofs.Module.Relative
import PropSchema.Proofs.Config.Mappings
import PropSchema.Proofs.Number.Integers
