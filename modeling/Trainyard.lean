import Trainyard.Catalog
import Trainyard.FileSystem.Edit
import Trainyard.Proofs.Binary
import Trainyard.Proofs.Job
import Trainyard.Proofs.Json.Record
import Trainyard.Proofs.Json.RoundTrip
import Trainyard.Proofs.Memo.Session
import Trainyard.Proofs.Stage.History
import Trainyard.Proofs.Tree.Binary
import Trainyard.Proofs.Tree.Levels
import Trainyard.Proofs.Tree.Saved
import Trainyard.Repository
import Trainyard.Script
import Trainyard.Stage.Binarize
import Trainyard.Stage.Optimize
import Trainyard.Proofs.Memo.Race
import Trainyard.Proofs.Stage.Binarize.Order
import Trainyard.Proofs.Stage.Order
import Trainyard.Proofs.Stage.Account
import Trainyard.Proofs.Stage.Confine
import Trainyard.Proofs.Stage.Rerun
import Trainyard.Proofs.Artifact.Shelf
import Trainyard.Proofs.Stage.Binarize.History
import Trainyard.Proofs.Repository.Fallback
import Trainyard.Proofs.Stage.Gates
import Trainyard.Proofs.FileSystem.Unblocked
import Trainyard.Proofs.Stage.Binarize.Records
import Trainyard.Proofs.Repository.Home
import Trainyard.Proofs.Train.Course
import Trainyard.Proofs.Catalog
import Trainyard.Proofs.Memo.Healing
import Trainyard.Proofs.Memo.Tally
import Trainyard.Proofs.Train.Snapshots
import Trainyard.Proofs.Artifact.Grammar
import Trainyard.Proofs.Place.Sharing
import Trainyard.Proofs.Tree.Size
import Trainyard.Proofs.Digest
