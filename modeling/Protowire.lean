import Protowire.Codegen.Writer
import Protowire.Files.FileTree
import Protowire.Main
import Protowire.Proofs.Codegen.Boxing
import Protowire.Proofs.Codegen.EnumIdents
import Protowire.Proofs.Codegen.EnumVariants
import Protowire.Proofs.Codegen.Layout
import Protowire.Proofs.Codegen.MemberNames
import Protowire.Proofs.Codegen.ModuleIdents
import Protowire.Proofs.Codegen.NeatCode
import Protowire.Proofs.Codegen.Parameters
import Protowire.Proofs.Codegen.Paths
import Protowire.Proofs.Codegen.WellNested
import Protowire.Proofs.CommandLine.Offline
import Protowire.Proofs.Files.Output
import Protowire.Proofs.Generator.Exchange
import Protowire.Proofs.Message.Ascending
import Protowire.Proofs.Message.Concatenation
import Protowire.Proofs.Message.Embedded
import Protowire.Proofs.Message.FaultPlace
import Protowire.Proofs.Message.FieldOrder
import Protowire.Proofs.Message.KindChange
import Protowire.Proofs.Message.LargerLimit
import Protowire.Proofs.Message.MapEntries
import Protowire.Proofs.Message.NestingLimit
import Protowire.Proofs.Message.RoundTrip
import Protowire.Proofs.Message.Truncation
import Protowire.Proofs.Message.UnknownFields
import Protowire.Proofs.Naming.Legal
import Protowire.Proofs.Naming.SnakeCase
import Protowire.Proofs.Schema.NameBinding
import Protowire.Proofs.Wire.TagKeys
import Protowire.Proofs.Wire.VarintForms
import Protowire.Proofs.Wire.Windows
import Protowire.Sample.Corpus
import Protowire.Wire.Session
