import Rpcsx.Rx.MemoryTable.Refinement
import Rpcsx.Rx.MemoryTable.Translate
import Rpcsx.Rx.MemoryTable.Walk

/-!
# Loops over a range

`for (it = lowerBound(begin); it != end() && it.beginAddress() < end; ++it)` visits the areas that
meet the range, in order. Such a loop may also replace the payloads it visits.
-/

namespace Rpcsx.Rx

open Lib

namespace MemoryTableWithPayload

variable {T : Type} {t t' : MemoryTableWithPayload T}

def areasIn (t : MemoryTableWithPayload T) (range : AddressRange) : List (AddressRange × T) :=
  (t.areasFrom t.mAreas.entries.length (t.lowerBound range.beginAddress)).takeWhile fun x =>
    decide (x.1.beginAddress < range.endAddress)

def updateIn (t : MemoryTableWithPayload T) (range : AddressRange)
    (f : AddressRange → T → Option T) : Option (MemoryTableWithPayload T) :=
  (t.areasIn range).foldlM (fun t x => (f x.1 x.2).bind fun d => t.setAt x.1.beginAddress d) t

end MemoryTableWithPayload

end Rpcsx.Rx
