import Relata.Algebra.Query
import Relata.CommandLine.Run
import Relata.Demo.Tour
import Relata.Main
import Relata.Proofs.Catalogs
import Relata.Proofs.Corruption
import Relata.Proofs.Decoding
import Relata.Proofs.Naming
import Relata.Proofs.Labels
import Relata.Proofs.Running
import Relata.Store.Catalog
import Relata.Store.Files
import Relata.Store.Memory
import Relata.Proofs.NaturalJoins
import Relata.Proofs.Backing
import Relata.Proofs.Paths
import Relata.Proofs.FileTrees
import Relata.Proofs.Sorting
import Relata.Proofs.Mirroring
import Relata.Proofs.FileCatalogs
import Relata.Proofs.Pushdown
import Relata.Proofs.SlotOrder
import Relata.Proofs.PayloadBound
import Relata.Proofs.SetOperators
import Relata.Proofs.JoinSchemas
import Relata.Proofs.CommonColumns
import Relata.Proofs.Insertions
import Relata.Proofs.SameColumns
import Relata.Proofs.Keyed
import Relata.Proofs.Literals
import Relata.Proofs.FreshNames
import Relata.Proofs.ThetaJoins
import Relata.Proofs.SchemaRecords
import Relata.Proofs.FloatOrder
import Relata.Proofs.HeaderBytes
import Relata.Proofs.LawfulOrder
import Relata.Proofs.Spellings
import Relata.Proofs.Destinations
import Relata.Proofs.MadeDirectories
import Relata.Proofs.FurtherDirectories
import Relata.Proofs.FailedWrites
import Relata.Proofs.IntegerLiterals
import Relata.Proofs.Grids
