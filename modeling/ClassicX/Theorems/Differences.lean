import ClassicX.Server.Client
import ClassicX.Theorems.Parsing

/-! Differences of entity states. `mcescmp` tells them apart but for a yaw and a phi that change by the same bits,
and those that it does not call big survive the wire. -/

namespace ClassicX

def Mcvec.sub (v u : Mcvec) : Mcvec := ⟨v.x - u.x, v.y - u.y, v.z - u.z⟩

def Mcvec.add (v u : Mcvec) : Mcvec := ⟨v.x + u.x, v.y + u.y, v.z + u.z⟩

/-- No coordinate is past 127. -/
def Mcvec.Small (v : Mcvec) : Prop := v.x.toInt.natAbs ≤ 127 ∧ v.y.toInt.natAbs ≤ 127 ∧ v.z.toInt.natAbs ≤ 127

theorem Mcvec.sub_eq_zero {v u : Mcvec} : v.sub u = {} ↔ v = u := by
  obtain ⟨vx, vy, vz⟩ := v
  obtain ⟨ux, uy, uz⟩ := u
  simp only [Mcvec.sub, Mcvec.mk.injEq, Int16.sub_eq_iff_eq_add, Int16.zero_add]

theorem Mcvec.add_sub (v u : Mcvec) : u.add (v.sub u) = v := by
  obtain ⟨vx, vy, vz⟩ := v
  obtain ⟨ux, uy, uz⟩ := u
  simp only [Mcvec.add, Mcvec.sub, Int16.add_comm _ (_ - _), Int16.sub_add_cancel]

/-! ### Comparison -/

theorem dcheck_iff {d : Int16} : dcheck d = true ↔ 127 < d.toInt.natAbs := by
  have hlo := d.le_toInt
  have hhi := d.toInt_lt
  have h127 : (-127 : Int16).toInt = -127 := rfl
  have hzero : (0 : Int16).toInt = 0 := rfl
  rw [dcheck, decide_eq_true_iff, Int16.lt_iff_toInt_lt]
  split
  · rename_i hpos
    rw [Int16.lt_iff_toInt_lt] at hpos
    have hneg : (-d).toInt = -d.toInt := by
      rw [Int16.toInt_neg, Int.bmod_eq_of_le] <;> omega
    rw [hneg]
    omega
  · rename_i hpos
    rw [Int16.lt_iff_toInt_lt] at hpos
    omega

theorem d3chk_iff {v : Mcvec} : d3chk v = true ↔ ¬v.Small := by
  simp only [d3chk, Bool.or_eq_true, dcheck_iff, Mcvec.Small]
  omega

/-- The bits of the yaw that change are not those of the phi. -/
def Mchead.Shows (dst src : Mchead) : Prop := dst.yaw ^^^ src.yaw ≠ dst.phi ^^^ src.phi

theorem shows_iff {dst src : Mchead} : dst.yaw ^^^ src.yaw ^^^ dst.phi ^^^ src.phi ≠ 0 ↔ dst.Shows src := by
  rw [UInt8.xor_assoc (dst.yaw ^^^ src.yaw), ne_eq, UInt8.xor_eq_zero_iff, Mchead.Shows]

theorem Mchead.Shows.ne {dst src : Mchead} (h : dst.Shows src) : dst ≠ src := by
  rintro rfl
  exact h (by rw [UInt8.xor_self, UInt8.xor_self])

/-- What `mcescmp` answers. -/
theorem mcescmp_eq (dst src : Mceup) : (¬(dst.epos.sub src.epos).Small ∧ mcescmp dst src = .big) ∨
    (dst.epos.sub src.epos).Small ∧
      (dst.epos ≠ src.epos ∧ dst.head.Shows src.head ∧ mcescmp dst src = .all ∨
        dst.epos ≠ src.epos ∧ ¬dst.head.Shows src.head ∧ mcescmp dst src = .pos ∨
        dst.epos = src.epos ∧ dst.head.Shows src.head ∧ mcescmp dst src = .head ∨
        dst.epos = src.epos ∧ ¬dst.head.Shows src.head ∧ mcescmp dst src = .eq) := by
  have hpos : (dst.epos.x - src.epos.x) ||| (dst.epos.z - src.epos.z) ||| (dst.epos.y - src.epos.y) ≠ 0 ↔
      dst.epos ≠ src.epos := by
    rw [ne_eq, ne_eq, ← Mcvec.sub_eq_zero, Int16.or_eq_zero_iff, Int16.or_eq_zero_iff, Mcvec.sub, Mcvec.mk.injEq]
    tauto
  simp only [mcescmp]
  by_cases hbig : d3chk (dst.epos.sub src.epos) = true
  · exact Or.inl ⟨d3chk_iff.mp hbig, if_pos hbig⟩
  · refine Or.inr ⟨not_not.mp fun h => hbig (d3chk_iff.mpr h), ?_⟩
    have hsmall : ¬d3chk ⟨dst.epos.x - src.epos.x, dst.epos.y - src.epos.y, dst.epos.z - src.epos.z⟩ = true := hbig
    rw [if_neg hsmall]
    by_cases hmoved : dst.epos ≠ src.epos <;> by_cases hturned : dst.head.Shows src.head
    · exact Or.inl ⟨hmoved, hturned, by rw [if_pos (hpos.mpr hmoved), if_pos (shows_iff.mpr hturned)]⟩
    · exact Or.inr (Or.inl ⟨hmoved, hturned, by rw [if_pos (hpos.mpr hmoved), if_neg (mt shows_iff.mp hturned)]⟩)
    · exact Or.inr (Or.inr (Or.inl ⟨not_not.mp hmoved, hturned,
        by rw [if_neg (mt hpos.mp hmoved), if_pos (shows_iff.mpr hturned)]⟩))
    · exact Or.inr (Or.inr (Or.inr ⟨not_not.mp hmoved, hturned,
        by rw [if_neg (mt hpos.mp hmoved), if_neg (mt shows_iff.mp hturned)]⟩))

/-- The answer of `mcescmp` is that of its class: a big difference, or else what of the position and the head is not the
    same. -/
structure Classified (dst src : Mceup) : Prop where
  big : mcescmp dst src = .big ↔ ¬(dst.epos.sub src.epos).Small
  eq : (dst.epos.sub src.epos).Small → (mcescmp dst src = .eq ↔ dst.epos = src.epos ∧ dst.head = src.head)
  head : (dst.epos.sub src.epos).Small → (mcescmp dst src = .head ↔ dst.epos = src.epos ∧ dst.head ≠ src.head)
  pos : (dst.epos.sub src.epos).Small → (mcescmp dst src = .pos ↔ dst.epos ≠ src.epos ∧ dst.head = src.head)
  all : (dst.epos.sub src.epos).Small → (mcescmp dst src = .all ↔ dst.epos ≠ src.epos ∧ dst.head ≠ src.head)
  moved : dst.head ≠ src.head → mcescmp dst src ≠ .eq

/-- `mcescmp` classifies unless yaw and phi change by the same bits and the difference is not big. -/
theorem classified_iff (dst src : Mceup) : Classified dst src ↔
    ¬(dst.epos.sub src.epos).Small ∨ dst.head = src.head ∨ dst.head.yaw ^^^ src.head.yaw ≠ dst.head.phi ^^^ src.head.phi := by
  constructor
  · intro h
    by_contra hno
    rw [not_or, not_or, not_not] at hno
    obtain ⟨hsmall, hne, hsame⟩ : (dst.epos.sub src.epos).Small ∧ dst.head ≠ src.head ∧ ¬dst.head.Shows src.head := hno
    rcases mcescmp_eq dst src with ⟨hbig, -⟩ | ⟨-, ⟨-, hshows, -⟩ | ⟨hpos, -, hr⟩ | ⟨-, hshows, -⟩ | ⟨-, -, hr⟩⟩
    · exact hbig hsmall
    · exact hsame hshows
    · exact hne ((h.pos hsmall).mp hr).2
    · exact hsame hshows
    · exact h.moved hne hr
  · intro hseen
    rcases mcescmp_eq dst src with ⟨hbig, hr⟩ | ⟨hsmall, hclass⟩
    · rw [← not_not (a := (dst.epos.sub src.epos).Small)] at hseen
      constructor <;> simp [hr, hbig]
    · have hhead : dst.head ≠ src.head ↔ dst.head.Shows src.head :=
        ⟨fun hne => (hseen.resolve_left (not_not.mpr hsmall)).resolve_left hne, Mchead.Shows.ne⟩
      rw [← hhead] at hclass
      rcases hclass with ⟨hpos, hne, hr⟩ | ⟨hpos, hne, hr⟩ | ⟨hpos, hne, hr⟩ | ⟨hpos, hne, hr⟩ <;>
        constructor <;> simp_all

/-- A yaw and a phi that both turn by one are not told apart from none. -/
theorem turn_unseen : ¬Classified ⟨0, {}, ⟨1, 1⟩⟩ ⟨0, {}, {}⟩ := fun h => h.moved (by decide) (by decide)

/-! ### The wire -/

/-- A word of one byte. -/
theorem byte_word {e : Int16} (h : 0 ≤ e.toInt ∧ e.toInt ≤ 255) : (0xFF &&& e.toUInt16).toUInt8.toUInt16.toInt16 = e := by
  have hlow : e.toUInt16.toNat ≤ 255 := by
    have hcond := BitVec.toInt_eq_toNat_cond e.toBitVec
    have hlt := e.toBitVec.isLt
    have hint := e.toInt_toBitVec
    have hnat : e.toUInt16.toNat = e.toBitVec.toNat := rfl
    split at hcond <;> omega
  have hmask : (0xFF &&& e.toUInt16).toNat = e.toUInt16.toNat := by
    rw [UInt16.toNat_and, Nat.and_comm]
    exact (Nat.and_two_pow_sub_one_eq_mod _ 8).trans (Nat.mod_eq_of_lt (by omega))
  have hand : (0xFF &&& e.toUInt16).toUInt8.toUInt16 = e.toUInt16 := by
    apply UInt16.toNat_inj.mp
    rw [UInt8.toNat_toUInt16, UInt16.toNat_toUInt8, hmask]
    omega
  rw [hand]
  simp

theorem readd_writed {d : Int16} {src : Ptr} (h : d.toInt.natAbs ≤ 127) (hsrc : Holds src (writed d)) : readd src = d := by
  have h0 : src 0 = (0xFF &&& (if 0 > d then d + 256 else d).toUInt16).toUInt8 := hsrc 0 (by simp [writed])
  have hzero : (0 : Int16).toInt = 0 := rfl
  have h127 : (127 : Int16).toInt = 127 := rfl
  rw [readd, h0]
  by_cases hneg : 0 > d
  · have hlt : d.toInt < 0 := Int16.lt_iff_toInt_lt.mp hneg
    have hadd : (d + 256).toInt = d.toInt + 256 := by
      have h256 : (256 : Int16).toInt = 256 := rfl
      rw [Int16.toInt_add, h256, Int.bmod_eq_of_le] <;> omega
    simp only [if_pos hneg]
    rw [byte_word (by omega), if_pos (Int16.lt_iff_toInt_lt.mpr (by omega))]
    simp
  · have hge : ¬d.toInt < 0 := fun h => hneg (Int16.lt_iff_toInt_lt.mpr h)
    simp only [if_neg hneg]
    rw [byte_word (by omega), if_neg fun h => by rw [Int16.lt_iff_toInt_lt] at h; omega]

/-- The three differences at `src`, each read with `readd`. -/
def read3d (src : Ptr) : Mcvec := ⟨readd src, readd (src.incr 1), readd (src.incr 2)⟩

theorem read3d_write3d {v : Mcvec} {src : Ptr} (h : v.Small) (hsrc : Holds src (write3d v)) : read3d src = v := by
  obtain ⟨hxy, hz⟩ := holds_append hsrc
  obtain ⟨hx, hy⟩ := holds_append hxy
  have hy' : readd (src.incr 1) = v.y := readd_writed h.2.1 hy
  have hz' : readd (src.incr 2) = v.z := readd_writed h.2.2 hz
  rw [read3d, readd_writed h.1 hx, hy', hz']

theorem small_swap {v u : Mcvec} (h : (v.sub u).Small) : (u.sub v).Small := by
  have hswap : ∀ a b : Int16, (a - b).toInt.natAbs ≤ 127 → (b - a).toInt.natAbs ≤ 127 := by
    intro a b h
    have hneg : b - a = -(a - b) := by simp
    rw [hneg, Int16.toInt_neg, Int.bmod_eq_of_le] <;> omega
  exact ⟨hswap _ _ h.1, hswap _ _ h.2.1, hswap _ _ h.2.2⟩

theorem small_of_not_big {dst src : Mceup} (h : mcescmp dst src ≠ .big) : (dst.epos.sub src.epos).Small := by
  rcases mcescmp_eq dst src with ⟨-, hbig⟩ | ⟨hsmall, -⟩
  · exact absurd hbig h
  · exact hsmall

/-- A difference that is not big is read as it was written, either way around, and leads from one position to the
    other. -/
theorem difference_survives (old new : Mceup) (h : mcescmp old new ≠ .big ∨ mcescmp new old ≠ .big) :
    (∀ src, Holds src (write3d (new.epos.sub old.epos)) →
      read3d src = new.epos.sub old.epos ∧ old.epos.add (read3d src) = new.epos) ∧
    ∀ src, Holds src (write3d (old.epos.sub new.epos)) →
      read3d src = old.epos.sub new.epos ∧ new.epos.add (read3d src) = old.epos := by
  have hsmall : (new.epos.sub old.epos).Small ∧ (old.epos.sub new.epos).Small := by
    rcases h with h | h
    · exact ⟨small_swap (small_of_not_big h), small_of_not_big h⟩
    · exact ⟨small_of_not_big h, small_swap (small_of_not_big h)⟩
  have hread : ∀ {v u : Mcvec} {src : Ptr}, (v.sub u).Small → Holds src (write3d (v.sub u)) →
      read3d src = v.sub u ∧ u.add (read3d src) = v := by
    intro v u src hs hsrc
    have hr := read3d_write3d hs hsrc
    exact ⟨hr, by rw [hr, Mcvec.add_sub]⟩
  exact ⟨fun src => hread hsmall.1, fun src => hread hsmall.2⟩

/-- A difference that wraps: 32767 and -32768 are next to each other. -/
theorem difference_survives_wrap : ∃ src : Ptr, Holds src (write3d ⟨1, 0, 0⟩) ∧
    Mcvec.add ⟨32767, 0, 0⟩ (read3d src) = ⟨-32768, 0, 0⟩ := by
  have hsrc : Holds (fun i => if i = 0 then 1 else 0) (write3d ⟨1, 0, 0⟩) := by
    intro i hi
    have : i < 3 := hi
    interval_cases i <;> rfl
  exact ⟨_, hsrc, ((difference_survives ⟨0, ⟨32767, 0, 0⟩, {}⟩ ⟨0, ⟨-32768, 0, 0⟩, {}⟩ (Or.inl (by decide))).1 _ hsrc).2⟩

end ClassicX
