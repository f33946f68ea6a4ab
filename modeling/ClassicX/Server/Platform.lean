import ClassicX.Mccp.Types

/-! # The platform (`platform.h`), and the one on the standard C library (`stdc.c`, `util.c`)

Memory is bounds-checked: a store outside of an object and a copy of a negative quantity, which is a
huge `size_t`, have no result. What goes to the standard error is not kept. -/

namespace ClassicX

/-- Stores to an object of `size` bytes. -/
def poke (size : Int) (p : Ptr) : List (Int × UInt8) → Option Ptr
  | [] => some p
  | (i, b) :: stores => if 0 ≤ i ∧ i < size then poke size (Function.update p i b) stores else none

def Ptr.take (p : Ptr) (qty : ℕ) : List UInt8 := Fields.piece (some p) 0 qty

/-- `bs` stored from offset `n` on. -/
def Ptr.store (p : Ptr) (n : Int) (bs : List UInt8) : Ptr :=
  fun i => if n ≤ i ∧ i < n + bs.length then bs.getD (i - n).toNat 0 else p i

/-- A string literal, with the NUL at its end. -/
def cchr (s : String) : Ptr := fun i => (s.toList.map fun c => UInt8.ofNat c.toNat).getD i.toNat 0

def mins (z y : Int) : Int := if z < y then z else y

def mcopy (src : Ptr) (qty : Int) : Option (List UInt8) := if 0 > qty then none else some (src.take qty.toNat)

/-- What `strncpy` stores: a string that is shorter than 64 bytes is filled with NULs. -/
def scopy (src : Ptr) : List UInt8 :=
  let s := (src.take 64).takeWhile (· ≠ 0)
  s ++ List.replicate (64 - s.length) 0

/-- Both implementations look at `src[64]` where there is no NUL before, and drop it. -/
def slen (src : Ptr) : Int := ((src.take 64).takeWhile (· ≠ 0)).length

/-- `do { --i; } while (i && (' ' == buf[i]))`: the first byte is not looked at. -/
def strim.last (buf : Ptr) : ℕ → ℕ
  | 0 => 0
  | i + 1 => if i ≠ 0 ∧ 0x20 = buf i then strim.last buf i else i

/-- The result, and `dst` with the bytes and a NUL stored, or as it was. -/
def strim (dst buf : Ptr) (max : Int) : Int × Ptr :=
  let i := strim.last buf 64 + 1
  if (i : Int) > max then (-1, dst) else (i, dst.store 0 (buf.take i ++ [0]))

/-- `fputs` of a null pointer is not defined. -/
def warn (msg : Option Ptr) : Option Unit := msg.map fun _ => ()

/-- The functions of `platform.h` that the two platforms implement differently. -/
class Platform where
  warn : Option Ptr → Option Unit
  strim : Ptr → Ptr → Int → Int × Ptr

instance stdc : Platform where
  warn := warn
  strim := strim

@[simp] theorem warn_stdc (msg : Option Ptr) : Platform.warn msg = warn msg := rfl

@[simp] theorem strim_stdc (dst buf : Ptr) (max : Int) : Platform.strim dst buf max = strim dst buf max := rfl

/-- The standard input: what is still to be read, and whether a read met its end, or an error. -/
structure Stdin where
  rest : List UInt8
  eof : Bool := false

/-- The result, the bytes stored, and what is left of the standard input. -/
def input (stdin : Stdin) (qty : Int) : Int × List UInt8 × Stdin :=
  let bytes := stdin.rest.take qty.toNat
  let stdin : Stdin := ⟨stdin.rest.drop qty.toNat, stdin.eof || bytes.length < qty.toNat⟩
  (if bytes = [] ∧ stdin.eof then -1 else bytes.length, bytes, stdin)

end ClassicX
