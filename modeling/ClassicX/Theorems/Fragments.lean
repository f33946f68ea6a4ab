import ClassicX.Mccp.Reader
import ClassicX.Theorems.Call

/-! A packet may be written in any pieces. Whatever the sizes of the buffers are, the bytes of the calls
are the bytes of the flat packet, in order, and the calls come to an end when the buffers have room for
the longest field of fixed size. -/

namespace ClassicX
open Turns (storesAt)
open Fields (Item Step clip)

/-! ### Exhausted pointers -/

theorem fieldsAt_nullify {s : Mcx} {src : Src} : fieldsAt s src.nullify = (fieldsAt s src).map Item.null := by
  have hlay : layout s.curpv s.w.evt src.nullify = (layout s.curpv s.w.evt src).map Item.null := by
    cases src <;> cases s.w.evt <;> try rfl
    simp only [layout, Src.nullify, List.map_cons, strField, Item.null]
    by_cases h₃ : 3 > s.curpv
    · simp [h₃]
    · by_cases h₆ : 6 > s.curpv <;> simp [h₃, h₆, Item.null]
  unfold fieldsAt
  rw [hlay, ← List.map_drop]
  rcases (layout s.curpv s.w.evt src).drop (s.w.type.toNat - 1) with _ | ⟨f, fs⟩
  · rfl
  · cases f <;> rfl

theorem left_nullify {s : Mcx} {src : Src} : left s src.nullify = left s src := by
  rw [left, left, fieldsAt_nullify, Fields.flat_map_null]

theorem nonneg_nullify {src : Src} (h : src.NonNeg) : src.nullify.NonNeg := by
  have hused : ∀ {p : Option Ptr} {len : Int}, (p.isSome → 0 ≤ len) → (if len = 0 then none else p).isSome → 0 ≤ len := by
    intro p len hlen
    split
    · simp
    · exact hlen
  cases src
  case gto g => exact ⟨hused h.1, hused h.2⟩
  case cho | eno | mso => exact hused h
  all_goals exact h

theorem nullify_nullify (src : Src) : src.nullify.nullify = src.nullify := by
  cases src <;> simp +contextual [Src.nullify]

theorem takes_nullify {s : Mcx} {src : Src} (h : Takes s src) (hevt : s.w.evt ≠ .nothing) : Takes s src.nullify := by
  rw [Takes, if_neg hevt] at *
  cases src <;> cases he : s.w.evt <;> rw [he] at h <;> exact h

/-! ### Progress -/

/-- The event has no field whose writer answers with a negative count. -/
def Plain (e : Mcsevt) : Prop := e ≠ .bupdate ∧ e ≠ .enew ∧ e ≠ .estate

/-- A field of fixed size that is not empty, and that a buffer of 6 bytes has room for if its event is plain;
    or a text with a source of no negative length. -/
def Tame (e : Mcsevt) : Item UInt8 → Prop
  | .fixed bs => bs ≠ [] ∧ (Plain e → bs.length ≤ 6)
  | .text p len _ _ => p.isSome → 0 ≤ len

theorem layout_tame {v : Int} {e : Mcsevt} {src : Src} (hnn : src.NonNeg) : ∀ f ∈ layout v e src, Tame e f := by
  cases e <;> cases src <;> simp only [layout, List.not_mem_nil, false_implies, implies_true] <;>
    simp only [Src.NonNeg] at hnn
  case pgreeting.gto g =>
    obtain ⟨h₁, h₂⟩ := hnn
    by_cases h₃ : 3 > v <;> by_cases h₆ : 6 > v <;> simp [h₃, h₆, Tame, writeb, writeu, strField] <;>
      first | exact h₁ | exact ⟨h₁, h₂⟩
  all_goals simp [Tame, Plain, writeb, writeu, writei, writed, write3d, write2u, writevec, strField, arrField]
  all_goals exact hnn

/-- When exhausted pointers were set to null, only a field of fixed size can be too long for a buffer. -/
theorem stuck_fixed {s : Mcx} {src : Src} {q : Int} {fs : List (Item UInt8)} (hp : Placed s) (hnn : src.NonNeg)
    (hq : 1 ≤ q) (h : Step q (fieldsAt s src.nullify) [] fs) :
    ∃ bs gs, fieldsAt s src = .fixed bs :: gs ∧ q < bs.length ∧ Tame s.w.evt (.fixed bs) := by
  rw [fieldsAt_nullify] at h
  rcases hfs : fieldsAt s src with _ | ⟨f, gs⟩
  · rw [hfs] at h
    cases h
  obtain ⟨-, hhd⟩ := fieldsAt_head hp hfs
  have htame := layout_tame (v := s.curpv) (e := s.w.evt) hnn
  rw [hfs, List.map_cons] at h
  rcases h.nil_cases with ⟨bs, gs', hbs, hstuck⟩ | ⟨p, len, pad, n, gs', htext, hstuck⟩
  · have hf : f = .fixed bs := by
      cases f <;> simp_all [Item.null]
    subst hf
    rcases hhd with ⟨-, -, hmem⟩ | ⟨_, _, _, _, hf', -⟩
    · have hok := htame _ hmem
      exact ⟨bs, gs, rfl, hstuck.resolve_left hok.1, hok⟩
    · cases hf'
  · rcases hhd with ⟨bs, rfl, -⟩ | ⟨p', len', pad', n', rfl, hmem, hrem, -⟩
    · simp [Item.null] at htext
    · have hok : p'.isSome → 0 ≤ len' := htame _ hmem
      simp only [Item.null, List.cons.injEq, Item.text.injEq] at htext
      obtain ⟨⟨rfl, rfl, -, rfl⟩, -⟩ := htext
      rcases hstuck with hstuck | hstuck
      · omega
      · by_cases h₀ : len' = 0
        · simp only [clip, h₀, if_true, Option.isSome_none] at hstuck
          simp at hstuck
          omega
        · simp only [clip, h₀, if_false] at hstuck
          split_ifs at hstuck with hp'
          · have := hok hp'
            omega
          · omega

/-- A call with room for 6 bytes writes something when exhausted pointers were set to null. -/
theorem not_stuck {s : Mcx} {src : Src} {q : Int} {fs : List (Item UInt8)} (hp : Placed s) (he : Plain s.w.evt)
    (hnn : src.NonNeg) (hq : 6 ≤ q) : ¬Step q (fieldsAt s src.nullify) [] fs := by
  intro h
  obtain ⟨bs, gs, -, hlt, htame⟩ := stuck_fixed hp hnn (by omega) h
  have := htame.2 he
  omega

/-! ### Calls until the end of the packet -/

/-- What each call of `pump` gives: a positive count of the bytes it wrote, `MCENOTENOUGH` and no byte,
    or 0 and no byte. -/
def Given (q : Int) (o : Swr) : Prop :=
  0 < o.ret ∧ o.Counts q ∨ o.ret = MCENOTENOUGH ∧ o.stores = [] ∨ o.ret = 0 ∧ o.stores = []

theorem Call.given {s : Mcx} {q : Int} {src : Src} {o : Swr} {bs : List UInt8} (h : Call s q src o bs) : Given q o := by
  have hcounts : bs ≠ [] → o.ret = bs.length → 0 < o.ret ∧ o.Counts q := by
    intro hne hret
    have := List.length_pos_iff.mpr hne
    exact ⟨by omega, by rw [h.bytes, h.stores], by rw [h.bytes, hret], hret ▸ h.fits⟩
  rcases h.ends with ⟨hne, hret, -, -⟩ | ⟨hne, hret, -, -⟩ | ⟨hnil, hret, -, -, -⟩ | ⟨hnil, hret, -, -⟩
  · exact Or.inl (hcounts hne hret)
  · exact Or.inl (hcounts hne hret)
  · exact Or.inr (Or.inl ⟨hret, by rw [h.stores, hnil]; rfl⟩)
  · exact Or.inr (Or.inr ⟨hret, by rw [h.stores, hnil]; rfl⟩)

/-- What the calls of `pump` give on a session with `s`, whose event is in progress or has just ended. -/
structure Pumped (s : Mcx) (src : Src) (qs : List Int) (os : List Swr) : Prop where
  given : List.Forall₂ Given (qs.take os.length) os
  pre : os.flatMap Swr.bytes <+: left s src
  all : (∃ o ∈ os, o.ret = 0) → os.flatMap Swr.bytes = left s src
  ends : (∀ q ∈ qs, 6 ≤ q) → src.nullify = src → (left s src).length + 1 ≤ qs.length → ∃ o ∈ os, o.ret = 0
  late : (∀ q ∈ qs, 6 ≤ q) → (left s src).length + 2 ≤ qs.length → ∃ o ∈ os, o.ret = 0

/-- A session with its event in progress, or at its end. -/
def Writing (s : Mcx) (src : Src) : Prop :=
  s.w.evt ≠ .nothing ∧ Placed s ∧ Plain s.w.evt ∧ Remains s.w.rem ∧ Takes s src ∧ src.NonNeg ∨
    s.w.evt = .nothing ∧ s.w.type ≠ 0

theorem Call.writing {s : Mcx} {q : Int} {src : Src} {o : Swr} {bs : List UInt8} (h : Call s q src o bs)
    (hevt : s.w.evt ≠ .nothing) (hp : Placed s) (he : Plain s.w.evt) (hret : o.ret ≠ 0) : Writing o.ctx o.src.nullify := by
  have hsame : o.ctx.w.evt = s.w.evt → Placed o.ctx → Writing o.ctx o.src.nullify := fun h₁ h₂ =>
    Or.inl ⟨h₁ ▸ hevt, h₂, h₁ ▸ he, h.rem, takes_nullify (h.takes h₁) (h₁ ▸ hevt), nonneg_nullify h.nonneg⟩
  rcases h.ends with ⟨-, -, h₁, h₂⟩ | ⟨-, -, h₁, h₂⟩ | ⟨-, -, h₁, -, -⟩ | ⟨-, h₁, -, -⟩
  · exact hsame h₁ h₂
  · exact Or.inr ⟨h₁, h₂⟩
  · exact hsame (by rw [h₁]) (h₁ ▸ hp)
  · exact absurd h₁ hret

theorem pump_cons {s : Mcx} {src : Src} {q : Int} {qs : List Int} {o : Swr} (ho : mcswr s q src = some o) :
    pump s src (q :: qs) = if o.ret = 0 then some [o] else (pump o.ctx o.src.nullify qs).map (o :: ·) := by
  simp only [pump, ho, Option.bind_eq_bind, Option.bind_some]
  split
  · rfl
  · cases pump o.ctx o.src.nullify qs <;> rfl

theorem Pumped.one {s : Mcx} {src : Src} {q : Int} {qs : List Int} {o : Swr} (hg : Given q o) (hret : o.ret = 0)
    (hleft : left s src = o.bytes) : Pumped s src (q :: qs) [o] where
  given := .cons hg .nil
  pre := by simp [hleft]
  all := fun _ => by simp [hleft]
  ends := fun _ _ _ => ⟨o, List.mem_cons_self, hret⟩
  late := fun _ _ => ⟨o, List.mem_cons_self, hret⟩

theorem Pumped.cons {s : Mcx} {src : Src} {q : Int} {qs : List Int} {o : Swr} {os : List Swr} (hg : Given q o)
    (hret : o.ret ≠ 0) (hleft : left s src = o.bytes ++ left o.ctx o.src) (hmoves : 6 ≤ q → src.nullify = src → o.bytes ≠ [])
    (h : Pumped o.ctx o.src.nullify qs os) : Pumped s src (q :: qs) (o :: os) := by
  have hlen : (left s src).length = o.bytes.length + (left o.ctx o.src.nullify).length := by
    rw [hleft, List.length_append, left_nullify]
  exact {
    given := .cons hg h.given
    pre := by
      rw [hleft, List.flatMap_cons, List.prefix_append_right_inj]
      exact left_nullify ▸ h.pre
    all := by
      rintro ⟨o', hmem, hz⟩
      rcases List.mem_cons.mp hmem with rfl | hmem
      · exact absurd hz hret
      · rw [hleft, List.flatMap_cons, h.all ⟨o', hmem, hz⟩, left_nullify]
    ends := by
      intro hq hnull hqs
      have := List.length_pos_iff.mpr (hmoves (hq q List.mem_cons_self) hnull)
      simp only [List.length_cons] at hqs
      obtain ⟨o', hmem, hz⟩ := h.ends (fun q' h => hq q' (List.mem_cons_of_mem _ h)) (nullify_nullify _) (by omega)
      exact ⟨o', List.mem_cons_of_mem _ hmem, hz⟩
    late := by
      intro hq hqs
      simp only [List.length_cons] at hqs
      obtain ⟨o', hmem, hz⟩ := h.ends (fun q' h => hq q' (List.mem_cons_of_mem _ h)) (nullify_nullify _) (by omega)
      exact ⟨o', List.mem_cons_of_mem _ hmem, hz⟩ }

theorem pump_pumped {s : Mcx} {src : Src} {qs : List Int} (hs : Writing s src) (hqs : ∀ q ∈ qs, 0 ≤ q) :
    ∃ os, pump s src qs = some os ∧ Pumped s src qs os := by
  induction qs generalizing s src with
  | nil => exact ⟨[], rfl, ⟨.nil, List.nil_prefix, by simp, by simp, by simp⟩⟩
  | cons q qs ih =>
    have hq : 0 ≤ q := hqs q List.mem_cons_self
    rcases hs with ⟨hevt, hp, he, hrem, htakes, hnn⟩ | ⟨hevt, htype⟩
    · obtain ⟨o, bs, ho, hc⟩ := mcswr_call hq hevt hp hrem htakes hnn ((At.refl hp hrem).roomy he)
      rw [pump_cons ho]
      by_cases hret : o.ret = 0
      · refine ⟨[o], if_pos hret, .one hc.given hret ?_⟩
        -- Only an event without a payload ends so.
        rcases hc.ends with ⟨hne, hret', -, -⟩ | ⟨hne, hret', -, -⟩ | ⟨-, hret', -, -, -⟩ | ⟨-, -, hevt', -⟩
        · exact absurd (List.length_eq_zero_iff.mp (by omega)) hne
        · exact absurd (List.length_eq_zero_iff.mp (by omega)) hne
        · rw [hret] at hret'
          exact absurd hret' (by decide)
        · rw [hc.left, left_nothing hevt', List.append_nil, hc.bytes]
      · obtain ⟨os, hos, h⟩ := ih (hc.writing hevt hp he hret) fun q' h => hqs q' (List.mem_cons_of_mem _ h)
        rw [if_neg hret, hos]
        refine ⟨o :: os, rfl, .cons hc.given hret (hc.bytes ▸ hc.left) (fun hq6 hnull => ?_) h⟩
        rw [hc.bytes]
        rcases hc.ends with ⟨hne, -, -, -⟩ | ⟨hne, -, -, -⟩ | ⟨-, -, -, -, hstep⟩ | ⟨-, hret', -, -⟩
        · exact hne
        · exact hne
        · exact absurd (hnull ▸ hstep) (not_stuck hp he hnn hq6)
        · exact absurd hret' hret
    · rw [pump_cons (mcswr_leftover hevt htype)]
      exact ⟨_, if_pos rfl, .one (Or.inr (Or.inr ⟨rfl, rfl⟩)) rfl (left_nothing hevt)⟩

/-- A packet written in pieces. The first call writes its number; the results of the calls after it are
    positive or `MCENOTENOUGH`, their bytes are the next bytes of the flat packet, and when a call answers
    with 0 they are all of them. With room for 6 bytes in every call one does. -/
theorem mcswr_fragments (s : Mcx) (e : Mcsevt) (src : Src) (q₀ : Int) (qs : List Int) (hidle : s.Idle)
    (he : e ≠ .bupdate ∧ e ≠ .enew ∧ e ≠ .estate) (hsrc : e.Casts src) (hnn : src.NonNeg) (hq₀ : 1 ≤ q₀)
    (hqs : ∀ q ∈ qs, 0 ≤ q) :
    ∃ o os, mcswr s q₀ (.evt e) = some o ∧ o.ret = 1 ∧ o.Counts q₀ ∧ pump o.ctx src qs = some os ∧
      List.Forall₂ Given (qs.take os.length) os ∧
      o.bytes ++ os.flatMap Swr.bytes <+: encode s.curpv e src ∧
      ((∃ o' ∈ os, o'.ret = 0) → o.bytes ++ os.flatMap Swr.bytes = encode s.curpv e src) ∧
      ((∀ q ∈ qs, 6 ≤ q) → (encode s.curpv e src).length + 1 ≤ qs.length → ∃ o' ∈ os, o'.ret = 0) := by
  have hop : seencode e ≠ .invalid := by
    cases e <;> simp_all [Mcsevt.Casts, seencode]
  have hne : e ≠ .nothing := fun h => hop (by rw [h]; rfl)
  have hevt : (startw s.curpv e true s.w.rem).evt = e := by rw [startw_eq]
  have hw : Writing { s with w := startw s.curpv e true s.w.rem } src := by
    refine Or.inl ⟨by simpa only [hevt], startw_placed hop, by simpa only [hevt], ?_, ?_, hnn⟩
    · rw [startw_eq]
      exact remains_str
    · rw [Takes, if_neg (by simpa only [hevt])]
      simpa only [hevt]
  obtain ⟨os, hos, h⟩ := pump_pumped hw hqs
  have hlen : (encode s.curpv e src).length = 1 + (left { s with w := startw s.curpv e true s.w.rem } src).length := by
    rw [encode_eq, List.length_append]
    rfl
  refine ⟨_, os, (mcswr_start hidle.1 hidle.2 hop).trans (by rw [if_pos hq₀]), rfl, ⟨rfl, rfl, hq₀⟩, hos, h.given, ?_, ?_, ?_⟩
  · rw [encode_eq]
    exact (List.prefix_append_right_inj _).mpr h.pre
  · intro hz
    rw [encode_eq, h.all hz]
    rfl
  · intro hq6 hn
    exact h.late hq6 (by omega)

/-- A chat message of 3 characters in buffers of 16 bytes. -/
theorem mcswr_fragments_chat : ∃ o os,
    mcswr (fresh 7) 16 (.evt .cmsg) = some o ∧ pump o.ctx (.mso ⟨some fun i => if i = 1 then 105 else 72, 3, -1⟩)
      (List.replicate 70 16) = some os ∧
      o.bytes ++ os.flatMap Swr.bytes = encode 7 .cmsg (.mso ⟨some fun i => if i = 1 then 105 else 72, 3, -1⟩) := by
  obtain ⟨o, os, ho, -, -, hos, -, -, hall, hends⟩ := mcswr_fragments (fresh 7) .cmsg
    (.mso ⟨some fun i => if i = 1 then 105 else 72, 3, -1⟩) 16 (List.replicate 70 16)
    ⟨rfl, rfl⟩ (by decide) trivial (fun _ => by decide) (by decide) (by simp)
  exact ⟨o, os, ho, hos, hall (hends (by simp) (by decide))⟩

end ClassicX
