import TrustedGrub.Lib.StringEdit

/-!
# Copies while an error is pending

`grub_memmove` and `grub_memset` ask `memcheck` first, which refuses while `errnum` is set. Here the destination is a place that
`memcheck` accepts, and only the error is left of its verdict.
-/

namespace TrustedGrub.CharIo
variable {B : Type}

/-- `grub_memmove (dst, src, n)` -/
def grubMemmove (pending : Bool) (m : Nat → B) (dst src n : Nat) : Nat → B := if pending then m else StringPool.move m dst src n

@[simp] theorem grubMemmove_clear (m : Nat → B) (dst src n : Nat) : grubMemmove false m dst src n = StringPool.move m dst src n := rfl

end TrustedGrub.CharIo
