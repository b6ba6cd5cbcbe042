/-!
# A total order on doubles

The order that sorting needs: every NaN equals every NaN and is greater than all else, and the two
zeros are equal (`compareTotal`). Two doubles that it finds equal have the same `key`.
-/

namespace Calculator.Double

/-- **The total order**: by value, the two zeros equal, every NaN at the end. -/
def compareTotal (a b : Float) : Ordering :=
  if a.isNaN then (if b.isNaN then .eq else .gt)
  else if b.isNaN then .lt
  else if a < b then .lt
  else if b < a then .gt
  else .eq

/-- Equality under the total order. -/
def sameTotal (a b : Float) : Bool := if a.isNaN then b.isNaN else a == b

/-- The bits that stand for a double and for all that equal it. -/
def key (x : Float) : UInt64 :=
  if x.isNaN then 0x7ff8000000000000 else if x == 0.0 then 0 else x.toBits

/-- **An implementation of a total order on doubles**: comparison, equality, and the words that a
double feeds to a hasher. -/
structure TotalOrder where
  compare : Float → Float → Ordering
  same : Float → Float → Bool
  feed : Float → List UInt64

/-- The implementation that is used here. -/
def TotalOrder.standard : TotalOrder where
  compare := compareTotal
  same := sameTotal
  feed x := [key x]

end Calculator.Double
