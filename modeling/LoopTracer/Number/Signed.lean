/-! Signed machine numbers.

Sizes, places and counts are whole numbers in this library. Where a sum or a product of numbers
that nobody has checked may leave the range of 64 bits, it wraps around. -/
namespace LoopTracer

/-- The signed number of 64 bits that a whole number becomes. -/
def signed64 (n : Int) : Int := (Int64.ofInt n).toInt

end LoopTracer
