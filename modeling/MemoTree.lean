import MemoTree.Config.Reader
import MemoTree.Tree.Lookup
import MemoTree.Tree.Merge
import MemoTree.Tree.Validate
import MemoTree.Tree.Walk
import MemoTree.Proofs.Atomicity
import MemoTree.Proofs.Transparency
import MemoTree.Proofs.Conservation
import MemoTree.Proofs.Formed
import MemoTree.Proofs.Ownership
import MemoTree.Proofs.Refinement
import MemoTree.Proofs.RingCoherence
import MemoTree.Proofs.Sequence
import MemoTree.Proofs.Totality
import MemoTree.Proofs.Occupancy
import MemoTree.Proofs.Certificate
import MemoTree.Proofs.Roots
import MemoTree.Proofs.Returns
import MemoTree.Proofs.Draining
import MemoTree.Proofs.Custody
import MemoTree.Proofs.Limits
import MemoTree.Proofs.Demand
import MemoTree.Proofs.Expansion
import MemoTree.Proofs.Repairs
import MemoTree.Proofs.Lending
import MemoTree.Proofs.Arrivals
import MemoTree.Proofs.Restarts
import MemoTree.Proofs.Completions
import MemoTree.Proofs.Encoding
import MemoTree.Proofs.Dimensions
import MemoTree.Proofs.Editing
import MemoTree.Proofs.Agreement
