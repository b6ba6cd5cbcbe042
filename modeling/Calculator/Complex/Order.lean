import Calculator.Complex
import Calculator.Double.Order

/-!
# The order of complex numbers

Complex numbers are sorted by their real and then by their imaginary part, each in a total order of
doubles. Equality and hash follow the same order, so that numbers with a NaN can be sorted and
stored too.
-/

namespace Calculator.Complex

open Double (TotalOrder)

/-! ### Under any total order of doubles -/

def equalBy (order : TotalOrder) (a b : Complex) : Bool :=
  order.same a.re b.re && order.same a.im b.im

/-- **The order of complex numbers**, by real and then by imaginary part. -/
def compareBy (order : TotalOrder) (a b : Complex) : Ordering :=
  (order.compare a.re b.re).then (order.compare a.im b.im)

/-- The same as a partial order: no two numbers are incomparable. -/
def partialCompareBy (order : TotalOrder) (a b : Complex) : Option Ordering :=
  some (compareBy order a b)

/-- What a number feeds to a hasher: its real and then its imaginary part. -/
def feedBy (order : TotalOrder) (a : Complex) : List UInt64 := order.feed a.re ++ order.feed a.im

/-- The numbers in order; equal ones keep their places relative to each other. -/
def sortBy (order : TotalOrder) (as : List Complex) : List Complex :=
  as.mergeSort fun a b => (compareBy order a b).isLE

/-! ### Under the standard order -/

instance : BEq Complex := ⟨equalBy .standard⟩

instance : Ord Complex := ⟨compareBy .standard⟩

instance : Hashable Complex := ⟨fun a => hash (feedBy .standard a)⟩

def sort : List Complex → List Complex := sortBy .standard

end Calculator.Complex
