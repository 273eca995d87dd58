import VirtualMemory.Kernel
import VirtualMemory.Snapshot
import VirtualMemory.Window
import VirtualMemory.Proofs.Accounting
import VirtualMemory.Proofs.Sharing
import VirtualMemory.Proofs.Rights
import VirtualMemory.Proofs.Capacity
import VirtualMemory.Proofs.Unmapping
import VirtualMemory.Proofs.Phases
import VirtualMemory.Proofs.Coherence
import VirtualMemory.Proofs.TakingBack
import VirtualMemory.Proofs.Requests
import VirtualMemory.Proofs.Positions
import VirtualMemory.Proofs.Isolation
import VirtualMemory.Proofs.Indifference
import VirtualMemory.Proofs.Lockstep
import VirtualMemory.Proofs.Correspondence
import VirtualMemory.Proofs.Validation
import VirtualMemory.Proofs.Reclaiming
import VirtualMemory.Proofs.Prediction
import VirtualMemory.Proofs.LargePages
import VirtualMemory.Proofs.Halves
import VirtualMemory.Proofs.Regions
import VirtualMemory.Proofs.Checking
import VirtualMemory.Proofs.Remapping
import VirtualMemory.Proofs.Uninterrupted
import VirtualMemory.Proofs.Overflow
import VirtualMemory.Proofs.Boot
import VirtualMemory.Proofs.NewRoot
import VirtualMemory.Proofs.LeafSizes
import VirtualMemory.Proofs.Runs
import VirtualMemory.Proofs.NewTables
