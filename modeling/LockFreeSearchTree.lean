import LockFreeSearchTree.TreapHeap
import LockFreeSearchTree.MrlockErrors
import LockFreeSearchTree.Lfca
import LockFreeSearchTree.LfcaAdaptation
import LockFreeSearchTree.LfcaDecision
import LockFreeSearchTree.LfcaErrors
import LockFreeSearchTree.LfcaSafety
import LockFreeSearchTree.TreapBounds
import LockFreeSearchTree.MrlockConcurrent
