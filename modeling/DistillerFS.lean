import DistillerFS.Configuration.FilterSettings
import DistillerFS.Distillation.PhantomFiles
import DistillerFS.Distillation.OrderIndependence
import DistillerFS.Storage.Ownership
import DistillerFS.Storage.WriteThrough
import DistillerFS.Recording.PathFilter
import DistillerFS.Mounting.Main
import DistillerFS.Configuration.AllOrNothing
import DistillerFS.Report.Legend
import DistillerFS.Daemon.Confinement
import DistillerFS.Daemon.ReportKeys
import DistillerFS.Storage.Descriptors
import DistillerFS.Storage.Durability
import DistillerFS.Distillation.ShellScript
import DistillerFS.Distillation.Placeholders
import DistillerFS.Mounting.ArgumentVector
import DistillerFS.Storage.NodeCreation
import DistillerFS.Recording.AllocationFailure
import DistillerFS.Toml.Accepted
import DistillerFS.Configuration.ReadBack
import DistillerFS.Configuration.ReadFile
import DistillerFS.Recording.PackedHash
import DistillerFS.Report.LogFile
import DistillerFS.Report.ItemBlocks
import DistillerFS.Distillation.Replays
import DistillerFS.Distillation.EndToEnd
import DistillerFS.Daemon.Noninterference
import DistillerFS.Daemon.Mutex
