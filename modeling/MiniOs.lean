import MiniOs.Proofs.Appends
import MiniOs.Proofs.Carry
import MiniOs.Proofs.Control
import MiniOs.Proofs.CopyOut
import MiniOs.Proofs.Counts
import MiniOs.Proofs.DramBounds
import MiniOs.Proofs.ElfImage
import MiniOs.Proofs.Execve
import MiniOs.Proofs.Failures
import MiniOs.Proofs.InitialStack
import MiniOs.Proofs.Install
import MiniOs.Proofs.Isolation
import MiniOs.Proofs.Paths
import MiniOs.Proofs.Sync
import MiniOs.Proofs.TrapStores
import MiniOs.Proofs.Zicsr
