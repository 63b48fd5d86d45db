import NvmeVirt.Admin.Completions
import NvmeVirt.Admin.Reset
import NvmeVirt.Channel.Credits
import NvmeVirt.Csd.BlockRegions
import NvmeVirt.Csd.Dispersion
import NvmeVirt.Csd.LabelCounters
import NvmeVirt.Csd.PartitionRanges
import NvmeVirt.Csd.PrefetchOnce
import NvmeVirt.Csd.VertexBuffer
import NvmeVirt.DualQueue.Equivalence
import NvmeVirt.DualQueue.Markers
import NvmeVirt.DualQueue.QueueRuns
import NvmeVirt.Ftl.FlashData
import NvmeVirt.Ftl.LineCoverage
import NvmeVirt.Ftl.Reads
import NvmeVirt.Ftl.VictimChoice
import NvmeVirt.Io.BlockDevice
import NvmeVirt.Io.CompletionDoorbell
import NvmeVirt.Io.CompletionQueue
import NvmeVirt.Io.Dispatch
import NvmeVirt.Io.Namespaces
import NvmeVirt.Io.SubmissionRing
import NvmeVirt.Io.WorkerProgress
import NvmeVirt.Kv.Allocators
import NvmeVirt.Kv.BatchDecoder
import NvmeVirt.Kv.IterReads
import NvmeVirt.Kv.Refinement
import NvmeVirt.Zns.RejectedWrites
import NvmeVirt.Zns.Retries
import NvmeVirt.Zns.ZoneAddresses
import NvmeVirt.Zns.ZoneReport
import NvmeVirt.Zns.ZrwaDivisors
