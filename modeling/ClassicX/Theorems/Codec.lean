import ClassicX.Mccp.Writer
import ClassicX.Theorems.Memory
import ClassicX.Theorems.Parsing

/-! What the two sides write of a position and of an entity state, the other reads, and the other way around: the
writers shift and mask an unsigned copy, and the readers swap the bytes of a word. -/

namespace ClassicX

/-! ### Words -/

theorem word_of_bytes (a b : UInt8) : (a.toUInt16 <<< 8 ||| b.toUInt16).toNat = 2 ^ 8 * a.toNat + b.toNat := by
  have ha := a.toNat_lt
  have hb := b.toNat_lt
  have hshift : (a.toUInt16 <<< 8).toNat = 2 ^ 8 * a.toNat := by
    rw [UInt16.toNat_shiftLeft, Nat.shiftLeft_eq]
    simp
    omega
  rw [UInt16.toNat_or, hshift, UInt8.toNat_toUInt16, ← Nat.two_pow_add_eq_or_of_lt hb]

/-- A word is written as it was read. -/
theorem writei_readi (src : Ptr) : writei (readi src) = [src 0, src 1] := by
  have h0 := (src 0).toNat_lt
  have h1 := (src 1).toNat_lt
  have hword := word_of_bytes (src 0) (src 1)
  rw [writei, readi, UInt16.toUInt16_toInt16]
  generalize (src 0).toUInt16 <<< 8 ||| (src 1).toUInt16 = word at hword
  have hhigh : (word >>> 8).toUInt8 = src 0 := by
    apply UInt8.toNat_inj.mp
    simp [Nat.shiftRight_eq_div_pow, hword]
    omega
  have hlow : (0xFF &&& word).toUInt8 = src 1 := by
    apply UInt8.toNat_inj.mp
    have hand : ∀ n : ℕ, 255 &&& n = n % 256 := by
      intro n
      rw [Nat.and_comm, Nat.and_two_pow_sub_one_eq_mod n 8]
    simp [hand, hword]
  simp only [hhigh, hlow]

theorem writevec_i3read (src : Ptr) : writevec (i3read src) = src.take 6 := by
  rw [writevec, i3read, writei_readi, writei_readi, writei_readi]
  rfl

theorem write2u_readu (src : Ptr) :
    writevec (i3read src) ++ write2u ⟨readu (src.incr 6), readu (src.incr 7)⟩ = src.take 8 := by
  rw [writevec_i3read]
  rfl

/-! ### States -/

theorem actrstat_reads (ctx : Mcx) {src : Ptr} {qty : Int} (hqty : 8 ≤ qty) : rctActorState ctx src qty true =
    some ⟨mcctlen ctx .actrstat, { ctx with r := rdone ctx.r },
      some (.stat (i3read src) ⟨readu (src.incr 6), readu (src.incr 7)⟩)⟩ := by
  have hlen : mcctlen ctx .actrstat ≤ 8 := by
    rw [mcctlen]
    split <;> simp [ctlen]
  rw [rctActorState, if_neg (by omega)]
  rfl

theorem estwtr_writes (ctx : Mcx) (u : Mceup) {qty : Int} (hqty : 8 ≤ qty) :
    estwtr ctx qty u = ⟨8, { ctx with w := treset ctx.w }, writevec u.epos ++ write2u u.head⟩ := by
  rw [estwtr, fixedw, if_neg (by omega)]

theorem read_written {epos : Mcvec} {head : Mchead} {src : Ptr} (h : Holds src (writevec epos ++ write2u head)) :
    i3read src = epos ∧ (⟨readu (src.incr 6), readu (src.incr 7)⟩ : Mchead) = head := by
  obtain ⟨hpos, hhead⟩ := holds_append h
  refine ⟨i3read_writevec hpos, ?_⟩
  have hyaw : src.incr 6 0 = head.yaw := hhead 0 (by simp [write2u, writeu])
  have hphi : src.incr 6 1 = head.phi := hhead 1 (by simp [write2u, writeu])
  rw [readu, readu, hyaw]
  exact congrArg (Mchead.mk head.yaw) hphi

/-- The 8 bytes that `estwtr` writes are read as the position and the head that were written, and what was read of any 8
    bytes is written as these bytes; the same for the 6 bytes of a position. -/
theorem state_round_trip (ctx ctx' : Mcx) {qty qty' : Int} (hqty : 8 ≤ qty) (hqty' : 8 ≤ qty') (src : Ptr) :
    (∀ u : Mceup, (estwtr ctx qty u).bytes.length = 8 ∧ (Holds src (estwtr ctx qty u).bytes →
      ∃ o, rctActorState ctx' src qty' true = some o ∧ o.val = some (.stat u.epos u.head))) ∧
    (∃ o epos head, rctActorState ctx' src qty' true = some o ∧ o.val = some (.stat epos head) ∧
      ∀ eno, (estwtr ctx qty ⟨eno, epos, head⟩).bytes = src.take 8) ∧
    (∀ v : Mcvec, (writevec v).length = 6 ∧ (Holds src (writevec v) → i3read src = v)) ∧
    writevec (i3read src) = src.take 6 := by
  refine ⟨fun u => ?_, ⟨_, _, _, actrstat_reads ctx' hqty', rfl, fun eno => ?_⟩, fun v => ?_, writevec_i3read src⟩
  · rw [estwtr_writes ctx u hqty]
    refine ⟨rfl, fun h => ⟨_, actrstat_reads ctx' hqty', ?_⟩⟩
    obtain ⟨hpos, hhead⟩ := read_written h
    rw [hpos, hhead]
  · rw [estwtr_writes ctx _ hqty]
    exact write2u_readu src
  · exact ⟨rfl, i3read_writevec⟩

/-- The bytes of a position with negative coordinates, and of a head. -/
theorem state_round_trip_negative : ∃ src : Ptr, Holds src [255, 255, 128, 0, 0, 127, 224, 64] ∧
    ∃ o, rctActorState (fresh 7) src 8 true = some o ∧ o.val = some (.stat ⟨-1, -32768, 127⟩ ⟨224, 64⟩) := by
  have hbytes : (estwtr (fresh 7) 8 ⟨0, ⟨-1, -32768, 127⟩, ⟨224, 64⟩⟩).bytes = [255, 255, 128, 0, 0, 127, 224, 64] := by decide
  have hsrc : Holds (fun i => [255, 255, 128, 0, 0, 127, 224, 64].getD i.toNat 0) [255, 255, 128, 0, 0, 127, 224, 64] :=
    fun i hi => by simp [List.getD_eq_getElem?_getD, List.getElem?_eq_getElem hi]
  exact ⟨_, hsrc, ((state_round_trip (fresh 7) (fresh 7) le_rfl le_rfl _).1 _).2 (hbytes ▸ hsrc)⟩

end ClassicX
