import RedPak.Conf.Matrix
import RedPak.Conf.MountOrder
import RedPak.Conf.Interference
import RedPak.Conf.Duplicates
import RedPak.Conf.Paths
import RedPak.Conf.Precedence
import RedPak.Conf.Remerge
import RedPak.Wrap.Capabilities
import RedPak.Wrap.Shares
import RedPak.Wrap.Contexts
import RedPak.Wrap.Absent
import RedPak.Cgroup.Enabled
import RedPak.Cgroup.StableRoot
import RedPak.Cgroup.Interleaving
import RedPak.Cgroup.MoveProcs
import RedPak.Cgroup.Complete
import RedPak.Factory.Invariant
import RedPak.Factory.AtomicCall
import RedPak.Node.AllOrNothing
import RedPak.Node.Relation
import RedPak.Factory.ErrorCode
import RedPak.Factory.TidyDisk
import RedPak.Factory.Template
import RedPak.Conf.StoredRefines
import RedPak.Conf.Denotation
import RedPak.Conf.ExpandBounds
import RedPak.Wrap.Sources
import RedPak.Wrap.ArgVectors
import RedPak.Cgroup.ControllerWords
import RedPak.Cgroup.Normalise
import RedPak.Conf.WhichProg
import RedPak.Node.Packages
import RedPak.Factory.Directories
import RedPak.Factory.Crowd
import RedPak.Factory.Snapshot
import RedPak.Wrap.Ownership
import RedPak.Wrap.Identity
import RedPak.Node.TreeText
import RedPak.Layered.Options
import RedPak.Wrap.Environment
import RedPak.Wrap.View
import RedPak.Wrap.Whole
import RedPak.Conf.Quote
