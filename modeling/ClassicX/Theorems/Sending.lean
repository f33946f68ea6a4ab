import ClassicX.Server.Send
import ClassicX.Theorems.Fragments
import ClassicX.Theorems.Framing
import ClassicX.Theorems.Memory

/-! The loop of a sender hands out the packet of its event. A spawn is the packet whose last field does not
fit in every buffer: what was written of it always ends at the same byte of the buffer, and that leaves
room for the field. -/

namespace ClassicX
open Turns (storesAt)
open Fields (Item Step)

/-! ### Room for the last field -/

theorem fieldsAt_enew {s : Mcx} (e : Mcent) (hp : Placed s) (hevt : s.w.evt = .enew) :
    s.w.type = 1 ∧ fieldsAt s (.eno e) =
        [.fixed (writeb e.eno), strField e.enam e.enln, .fixed (writevec e.epos ++ write2u e.head)] ∨
      s.w.type = 2 ∧ 1 ≤ s.w.rem ∧ fieldsAt s (.eno e) =
        [.text e.enam e.enln 0x20 s.w.rem, .fixed (writevec e.epos ++ write2u e.head)] ∨
      s.w.type = 3 ∧ fieldsAt s (.eno e) = [.fixed (writevec e.epos ++ write2u e.head)] := by
  rcases hp with hp | ⟨i, htype, k, hk, hrem⟩
  · rw [hevt] at hp
    cases hp
  rw [hevt] at hk
  match i, hk with
  | 0, hk => exact Or.inl ⟨htype, by simp [fieldsAt, htype, hevt, layout, cutField]⟩
  | 1, hk =>
    obtain rfl : k = some MCSTRLEN := (Option.some.inj hk).symm
    exact Or.inr (Or.inl ⟨htype, (hrem _ rfl).1, by simp [fieldsAt, htype, hevt, layout, cutField, strField]⟩)
  | 2, hk => exact Or.inr (Or.inr ⟨htype, by simp [fieldsAt, htype, hevt, layout, cutField]⟩)

/-- A spawn stands in the buffer where its 74 bytes have it stand when they are cut into buffers of 16. -/
def Aligned (s : Mcx) (len : Int) (src : Src) : Prop :=
  s.w.evt = .enew ∧ (16 : Int) ∣ len + 74 - (left s src).length ∧ (src.nullify = src ∨ s.w.type = 1)

/-- A payload without pointers. -/
def Bare : Src → Prop
  | .gto _ | .cho _ | .eno _ | .mso _ => False
  | _ => True

/-- The room of a sender suits its event. The payloads of `segeneric` have no pointers, and fit in one buffer. -/
def Suits (eager : Bool) (s : Mcx) (len : Int) (src : Src) : Prop :=
  if eager then 1 ≤ len ∧ (Plain s.w.evt ∨ Aligned s len src) else Bare src ∧ (left s src).length ≤ len

theorem Bare.nullify {src : Src} (h : Bare src) : src.nullify = src := by
  cases src <;> first | exact h.elim | rfl

theorem Bare.same {s s' : Mcx} {src src' : Src} (h : Bare src) (hevt : s.w.evt ≠ .nothing) (hfs : fieldsAt s src ≠ [])
    (htakes : Takes s src) (hevt' : s'.w.evt = s.w.evt) (htakes' : Takes s' src') : Bare src' := by
  rw [Takes, if_neg hevt] at htakes
  rw [Takes, if_neg (hevt'.symm ▸ hevt), hevt'] at htakes'
  have hping : s.w.evt ≠ .ping := fun he => hfs (by simp [fieldsAt, he, layout])
  have hlnew : s.w.evt ≠ .lnew := fun he => hfs (by simp [fieldsAt, he, layout])
  cases he : s.w.evt <;> rw [he] at htakes htakes' <;> first | exact absurd he hping | exact absurd he hlnew | skip
  all_goals cases src <;> first | exact h.elim | exact htakes.elim | skip
  all_goals cases src' <;> first | exact htakes'.elim | trivial

theorem left_fixed {s : Mcx} {src : Src} {bs : List UInt8} {fs : List (Item UInt8)} (h : fieldsAt s src = .fixed bs :: fs) :
    bs.length ≤ (left s src).length := by
  rw [left, h, Fields.flat_cons, flat_fixed, List.length_append]
  omega

theorem left_pos {s : Mcx} {src : Src} {f : Item UInt8} {fs : List (Item UInt8)} (hp : Placed s) (hnn : src.NonNeg)
    (h : fieldsAt s src = f :: fs) : 1 ≤ (left s src).length := by
  rw [left, h, Fields.flat_cons, List.length_append]
  rcases (fieldsAt_head hp h).2 with ⟨bs, rfl, hmem⟩ | ⟨p, len, pad, n, rfl, -, hrem, -⟩
  · have := List.length_pos_iff.mpr (layout_tame hnn _ hmem).1
    rw [flat_fixed]
    omega
  · rw [Item.flat, Fields.length_text]
    omega

/-- A spawn that is aligned meets its state with room for it. -/
theorem Aligned.roomy {s : Mcx} {len : Int} {e : Mcent} (h : Aligned s len (.eno e)) (hp : Placed s) (hlen : 1 ≤ len)
    (hle : len ≤ OUTBUFLEN) : Roomy s len (.eno e) := by
  obtain ⟨hevt, halign, -⟩ := h
  have hle : len ≤ 16 := hle
  simp only [Roomy, hevt]
  rcases fieldsAt_enew e hp hevt with ⟨htype, hfs⟩ | ⟨htype, hrem, hfs⟩ | ⟨htype, hfs⟩
  · have hleft : (left s (.eno e)).length = 73 := by simp [left, hfs]
    rw [hleft] at halign
    exact ⟨fun _ h₁ _ => by omega, fun h₂ => by omega, fun h₃ => by omega⟩
  · have hleft : ((left s (.eno e)).length : Int) = s.w.rem + 8 := by
      simp [left, hfs, Item.flat]
      omega
    rw [hleft] at halign
    exact ⟨fun h₁ => by omega, fun _ h₂ h₃ => by omega, fun h₃ => by omega⟩
  · have hleft : (left s (.eno e)).length = 8 := by simp [left, hfs]
    rw [hleft] at halign
    exact ⟨fun h₁ => by omega, fun h₂ => by omega, fun _ => by omega⟩

theorem Aligned.not_stuck {s : Mcx} {len : Int} {e : Mcent} {fs : List (Item UInt8)} (h : Aligned s len (.eno e))
    (hp : Placed s) (hnn : (Src.eno e).NonNeg) (hlen : 1 ≤ len) (hle : len ≤ OUTBUFLEN) :
    ¬Step len (fieldsAt s (.eno e)) [] fs := by
  intro hstep
  obtain ⟨hevt, halign, hnull⟩ := h
  have hle : len ≤ 16 := hle
  have hfixed : s.w.type ≠ 1 → ∃ bs gs, fieldsAt s (.eno e) = .fixed bs :: gs ∧ len < bs.length := by
    intro htype
    obtain ⟨bs, gs, hbs, hlt, -⟩ := stuck_fixed hp hnn hlen ((hnull.resolve_right htype).symm ▸ hstep)
    exact ⟨bs, gs, hbs, hlt⟩
  rcases fieldsAt_enew e hp hevt with ⟨htype, hfs⟩ | ⟨htype, hrem, hfs⟩ | ⟨htype, hfs⟩
  · -- The number of the entity is a single byte.
    rw [hfs] at hstep
    rcases hstep.nil_cases with ⟨bs, gs, hbs, hstuck⟩ | ⟨_, _, _, _, _, htext, -⟩
    · obtain ⟨rfl, -⟩ : writeb e.eno = bs ∧ _ := by simpa using hbs
      rcases hstuck with hstuck | hstuck
      · cases hstuck
      · rw [length_writeb] at hstuck
        omega
    · cases htext
  · obtain ⟨bs, gs, hbs, -⟩ := hfixed (by omega)
    rw [hfs] at hbs
    cases hbs
  · obtain ⟨bs, gs, hbs, hlt⟩ := hfixed (by omega)
    rw [hfs] at hbs
    obtain ⟨rfl, -⟩ : writevec e.epos ++ write2u e.head = bs ∧ _ := by simpa using hbs
    have hleft : (left s (.eno e)).length = 8 := by simp [left, hfs]
    rw [hleft] at halign
    simp only [List.length_append, length_writevec, length_write2u] at hlt
    omega

/-- In a packet that fits no field is too long. -/
theorem roomy_of_fits {s : Mcx} {len : Int} {src : Src} (hp : Placed s) (htakes : Takes s src) (hevt : s.w.evt ≠ .nothing)
    (h : (left s src).length ≤ len) : Roomy s len src := by
  rw [Takes, if_neg hevt] at htakes
  unfold Roomy
  cases he : s.w.evt <;> try trivial
  case bupdate =>
    rw [he] at htakes
    cases src <;> try exact htakes.elim
    intro htype
    rw [left, fieldsAt, htype, he] at h
    simp [layout, cutField] at h
    omega
  case enew =>
    rw [he] at htakes
    cases src <;> try exact htakes.elim
    rename_i e
    rcases fieldsAt_enew e hp he with ⟨htype, hfs⟩ | ⟨htype, hrem, hfs⟩ | ⟨htype, hfs⟩
    · simp [left, hfs] at h
      exact ⟨fun _ _ h₁ => by omega, fun h₂ => by omega, fun h₃ => by omega⟩
    · simp [left, hfs, Item.flat] at h
      exact ⟨fun h₁ => by omega, fun _ h₂ h₃ => by omega, fun h₃ => by omega⟩
    · simp [left, hfs] at h
      exact ⟨fun h₁ => by omega, fun h₂ => by omega, fun _ => by omega⟩
  case estate =>
    rw [he] at htakes
    cases src <;> try exact htakes.elim
    refine ⟨fun htype _ => ?_, fun htype => ?_⟩ <;>
      · rw [left, fieldsAt, htype, he] at h
        simp [layout, cutField] at h
        omega

theorem Suits.roomy {eager : Bool} {s : Mcx} {len : Int} {src : Src} (h : Suits eager s len src) (hp : Placed s)
    (hrem : Remains s.w.rem) (htakes : Takes s src) (hevt : s.w.evt ≠ .nothing) (hle : len ≤ OUTBUFLEN) : Roomy s len src := by
  cases eager with
  | false => exact roomy_of_fits hp htakes hevt h.2
  | true =>
    obtain ⟨hlen, hplain | halign⟩ := h
    · exact (At.refl hp hrem).roomy hplain
    · rw [Takes, if_neg hevt, halign.1] at htakes
      cases src <;> first | exact htakes.elim | exact halign.roomy hp hlen hle

/-- A call that writes nothing is one of an eager sender, and of a plain event: a pointer has just been used
    up, or the buffer is not empty. -/
theorem Suits.stuck {eager : Bool} {s : Mcx} {len : Int} {src : Src} {fs : List (Item UInt8)} (h : Suits eager s len src)
    (hp : Placed s) (htakes : Takes s src) (hevt : s.w.evt ≠ .nothing) (hnn : src.NonNeg) (hle : len ≤ OUTBUFLEN)
    (hstep : Step len (fieldsAt s src) [] fs) :
    eager = true ∧ Plain s.w.evt ∧ ¬(src.nullify = src ∧ len = OUTBUFLEN) := by
  cases eager with
  | false =>
    obtain ⟨hbare, hfits⟩ := h
    rcases hfs : fieldsAt s src with _ | ⟨f, gs⟩
    · rw [hfs] at hstep
      cases hstep
    have hone := left_pos hp hnn hfs
    obtain ⟨bs, gs, hbs, hlt, -⟩ := stuck_fixed hp hnn (by omega) (hbare.nullify.symm ▸ hstep)
    have := left_fixed hbs
    omega
  | true =>
    obtain ⟨hlen, hplain | halign⟩ := h
    · refine ⟨rfl, hplain, fun ⟨hnull, hfull⟩ => ?_⟩
      exact not_stuck hp hplain hnn (hfull.symm ▸ (by decide)) (hnull.symm ▸ hstep)
    · rw [Takes, if_neg hevt, halign.1] at htakes
      cases src <;> first | exact htakes.elim | exact absurd hstep (halign.not_stuck hp hnn hlen hle)

/-! ### The loop -/

/-- What was handed out, and what is in the buffer. -/
def World.given (w : World) (o : Out) : List UInt8 := w.stdout ++ o.buf.take o.idx.toNat

/-- `w` with other output, and with the writer in another state. -/
def World.to (w : World) (outputs : List (List UInt8)) (ser : Mcseri Mcsevt Int) : World :=
  { w with outputs := outputs, z := { w.z with session := { w.z.session with w := ser } } }

/-- A writer that has no event. -/
abbrev Rest := { ser : Mcseri Mcsevt Int // ser.evt = .nothing ∧ ser.type = 0 }

/-- A sender in its loop, with an event in progress. -/
structure Ready (eager : Bool) (s : Mcx) (o : Out) (src : Src) : Prop where
  evt : s.w.evt ≠ .nothing
  placed : Placed s
  rem : Remains s.w.rem
  takes : Takes s src
  nonneg : src.NonNeg
  idx : 0 ≤ o.idx
  len : 0 ≤ o.len
  room : o.idx + o.len = OUTBUFLEN
  suits : Suits eager s o.len src

theorem Ready.le {eager : Bool} {s : Mcx} {o : Out} {src : Src} (h : Ready eager s o src) : o.len ≤ OUTBUFLEN := by
  have := h.idx
  have := h.room
  omega

theorem Ready.mcswr {eager : Bool} {w : World} {o : Out} {src : Src} (h : Ready eager w.z.session o src) :
    ∃ r bs, Call w.z.session o.len src r bs ∧
      w.mcswr o src = some (r.ret, w.to w.outputs r.ctx.w, { o with buf := o.buf.store o.idx bs }, r.src) := by
  obtain ⟨r, bs, hr, hc⟩ := mcswr_call h.len h.evt h.placed h.rem h.takes h.nonneg
    (h.suits.roomy h.placed h.rem h.takes h.evt h.le)
  have hpoke : poke OUTBUFLEN o.buf (r.stores.map fun st => (o.idx + st.1, st.2)) = some (o.buf.store o.idx bs) := by
    rw [hc.stores, Turns.map_add_storesAt, add_zero]
    exact poke_storesAt h.idx (by have := hc.fits; have := h.room; omega)
  refine ⟨r, bs, hc, ?_⟩
  simp only [World.mcswr, hr, hpoke, Option.bind_eq_bind, Option.bind_some, World.to]
  rw [← hc.frame]
  rfl

theorem World.empty_eq (w : World) (o : Out) (h : 0 ≤ o.idx ∧ o.idx ≤ OUTBUFLEN) :
    w.empty o = some (w.to (w.outputs ++ [o.buf.take o.idx.toNat]) w.z.session.w, { o with idx := 0, len := OUTBUFLEN }) := by
  simp only [World.empty, World.output, if_pos h, Option.bind_eq_bind, Option.bind_some]
  rfl

theorem given_empty (w : World) (o : Out) (ser : Mcseri Mcsevt Int) :
    (w.to (w.outputs ++ [o.buf.take o.idx.toNat]) ser).given { o with idx := 0, len := OUTBUFLEN } = w.given o :=
  (List.append_nil _).trans List.flatten_concat

theorem full_eq (eager : Bool) {w : World} {o : Out} (hidx : 0 ≤ o.idx) (hlen : 0 ≤ o.len)
    (hroom : o.idx + o.len = OUTBUFLEN) :
    ∃ out o', w.full eager o = some (w.to out w.z.session.w, o') ∧
      (w.to out w.z.session.w).given o' = w.given o ∧ 0 ≤ o'.idx ∧ 0 ≤ o'.len ∧ o'.idx + o'.len = OUTBUFLEN ∧
      (eager → 1 ≤ o'.len ∧ (16 : Int) ∣ o'.len - o.len) ∧ (eager = false → o'.len = o.len) := by
  by_cases h : eager ∧ 0 = o.len
  · rw [World.full, if_pos h, World.empty_eq _ _ ⟨hidx, by omega⟩]
    refine ⟨_, _, rfl, given_empty _ _ _, le_rfl, (by decide : 0 ≤ OUTBUFLEN), rfl, fun _ => ⟨(by decide : 1 ≤ OUTBUFLEN), ?_⟩, fun he => ?_⟩
    · simp [← h.2, OUTBUFLEN]
    · rw [he] at h
      exact absurd h.1 (by decide)
  · rw [World.full, if_neg h]
    refine ⟨w.outputs, o, rfl, rfl, hidx, hlen, hroom, fun he => ⟨?_, by simp⟩, fun _ => rfl⟩
    have : 0 ≠ o.len := fun h₀ => h ⟨he, h₀⟩
    omega

theorem result_count (w : World) (o : Out) {qty : Int} (h : 0 ≤ qty) :
    w.result o qty = some (qty, w, { o with idx := o.idx + qty, len := o.len - qty }) := by
  have hne : MCENOTENOUGH ≠ qty := by
    intro hq
    rw [← hq] at h
    exact absurd h (by decide)
  rw [World.result, if_neg hne, if_neg (not_lt.mpr h)]

theorem result_stuck (w : World) (o : Out) (h : 0 ≤ o.idx ∧ o.idx ≤ OUTBUFLEN) :
    w.result o MCENOTENOUGH = some (MCENOTENOUGH, w.to (w.outputs ++ [o.buf.take o.idx.toNat]) w.z.session.w, { o with idx := 0, len := OUTBUFLEN }) := by
  rw [World.result, if_pos rfl, World.empty_eq _ _ h]
  rfl

theorem sendLoop_turn {eager : Bool} {k : ℕ} {w w₁ w₂ w₃ : World} {o o₁ o₂ o₃ : Out} {src src₁ : Src} {q q₂ : Int}
    (h₁ : w.mcswr o src = some (q, w₁, o₁, src₁)) (h₂ : w₁.result o₁ q = some (q₂, w₂, o₂))
    (h₃ : w₂.full eager o₂ = some (w₃, o₃)) :
    sendLoop eager (k + 1) w o src =
      if 0 ≠ q₂ then sendLoop eager k w₃ o₃ (if eager then src₁.nullify else src₁) else some (w₃, o₃) := by
  simp only [sendLoop, h₁, h₂, h₃, Option.bind_eq_bind, Option.bind_some]

theorem sendLoop_none {eager : Bool} {k : ℕ} {w : World} {o : Out} {src : Src} (h : w.mcswr o src = none) :
    sendLoop eager k w o src = none := by
  cases k with
  | zero => rfl
  | succ k => simp only [sendLoop, h, Option.bind_eq_bind, Option.bind_none]

/-- What a sender leaves behind at the end of its loop: the writer has no event, and the rest of the packet was
    handed out or is in the buffer. -/
def Sends (w : World) (given : List UInt8) (w' : World) (o' : Out) : Prop :=
  ∃ out, ∃ ser : Rest, w' = w.to out ser ∧ w'.given o' = given ∧ 0 ≤ o'.idx ∧ o'.idx ≤ OUTBUFLEN

/-- After the last byte of a packet the writer answers with 0, and the sender is done. -/
theorem sendLoop_done (eager : Bool) (k : ℕ) {w : World} {o : Out} (src : Src) (hevt : w.z.session.w.evt = .nothing)
    (htype : w.z.session.w.type ≠ 0) (hidx : 0 ≤ o.idx) (hlen : 0 ≤ o.len) (hroom : o.idx + o.len = OUTBUFLEN) :
    ∃ w' o', sendLoop eager (k + 1) w o src = some (w', o') ∧ Sends w (w.given o) w' o' := by
  have h₁ : w.mcswr o src = some (0, w.to w.outputs { w.z.session.w with type := 0 }, o, src) := by
    simp only [World.mcswr, mcswr_leftover hevt htype, Option.bind_eq_bind, Option.bind_some]
    rfl
  obtain ⟨out, o', h₃, hgiven, hidx', hlen', hroom', -⟩ := full_eq eager
    (w := w.to w.outputs { w.z.session.w with type := 0 }) (o := { o with idx := o.idx + 0, len := o.len - 0 })
    (by simpa using hidx) (by simpa using hlen) (by simpa using hroom)
  refine ⟨_, o', (sendLoop_turn h₁ (result_count _ _ le_rfl) h₃).trans (if_neg (not_not.mpr rfl)), out,
    ⟨{ w.z.session.w with type := 0 }, hevt, rfl⟩, rfl, ?_, hidx', by omega⟩
  have : w.given { o with idx := o.idx + 0, len := o.len - 0 } = w.given o := by
    rw [add_zero, sub_zero]
  exact hgiven.trans this

def kept (eager : Bool) (src : Src) : Src := if eager then src.nullify else src

theorem left_kept (eager : Bool) {s : Mcx} {src : Src} : left s (kept eager src) = left s src := by
  cases eager
  · rfl
  · exact left_nullify

/-- A call after which the event goes on leaves a sender ready for the next one. -/
theorem Ready.next {eager : Bool} {s : Mcx} {o o' : Out} {src : Src} {r : Swr} {bs : List UInt8}
    (h : Ready eager s o src) (hc : Call s o.len src r bs) (hevt : r.ctx.w.evt = s.w.evt) (hp : Placed r.ctx)
    (hfs : fieldsAt s src ≠ []) (hidx : 0 ≤ o'.idx) (hlen : 0 ≤ o'.len) (hroom : o'.idx + o'.len = OUTBUFLEN)
    (heager : eager → 1 ≤ o'.len ∧ (Plain s.w.evt ∨ (16 : Int) ∣ o'.len - (o.len - bs.length)))
    (hlazy : eager = false → o.len - bs.length ≤ o'.len) : Ready eager r.ctx o' (kept eager r.src) := by
  have hleft : (left s src).length = bs.length + (left r.ctx (kept eager r.src)).length := by
    rw [left_kept, hc.left, List.length_append]
  have hne : r.ctx.w.evt ≠ .nothing := hevt.symm ▸ h.evt
  have hsuits := h.suits
  cases eager with
  | true =>
    obtain ⟨hone, hdvd⟩ := heager rfl
    refine ⟨hne, hp, hc.rem, takes_nullify (hc.takes hevt) hne, nonneg_nullify hc.nonneg, hidx, hlen, hroom, hone, ?_⟩
    obtain ⟨-, hplain | halign⟩ := hsuits
    · exact Or.inl (hevt.symm ▸ hplain)
    · have hdvd := hdvd.resolve_left fun hplain => hplain.2.1 halign.1
      have := halign.2.1
      exact Or.inr ⟨hevt.trans halign.1, by omega, Or.inl (nullify_nullify _)⟩
  | false =>
    obtain ⟨hbare, hfits⟩ := hsuits
    have := hlazy rfl
    exact ⟨hne, hp, hc.rem, hc.takes hevt, hc.nonneg, hidx, hlen, hroom,
      hbare.same h.evt hfs h.takes hevt (hc.takes hevt), by omega⟩

theorem given_store {w : World} {o : Out} (ser : Mcseri Mcsevt Int) (bs : List UInt8) (len : Int) (h : 0 ≤ o.idx) :
    (w.to w.outputs ser).given ⟨o.buf.store o.idx bs, o.idx + bs.length, len⟩ = w.given o ++ bs := by
  obtain ⟨buf, idx, room⟩ := o
  obtain ⟨n, rfl⟩ := Int.eq_ofNat_of_zero_le h
  have : ((n : Int) + bs.length).toNat = n + bs.length := by omega
  simp only [World.given, World.stdout, World.to, this, Int.toNat_natCast, take_store, List.append_assoc]

/-- The loop of a sender that is ready ends, and gives away what is left of the packet. -/
theorem sendLoop_sends {eager : Bool} {k : ℕ} {w : World} {o : Out} {src : Src} (h : Ready eager w.z.session o src)
    (hk : 2 * (left w.z.session src).length + 2 ≤ k ∨
      src.nullify = src ∧ o.len = OUTBUFLEN ∧ 2 * (left w.z.session src).length + 1 ≤ k) :
    ∃ w' o', sendLoop eager k w o src = some (w', o') ∧ Sends w (w.given o ++ left w.z.session src) w' o' := by
  -- The induction is on the turns: each writes a byte, or the buffer was given away and the next one does.
  induction k generalizing w o src with
  | zero => omega
  | succ k ih =>
    obtain ⟨r, bs, hc, hm⟩ := h.mcswr
    have hfits := hc.fits
    have hidx := h.idx
    have hroom := h.room
    have hctx : ∀ out, (w.to out r.ctx.w).z.session = r.ctx := fun out => hc.frame.symm
    have hlen : (left w.z.session src).length = bs.length + (left r.ctx (kept eager r.src)).length := by
      rw [left_kept, hc.left, List.length_append]
    have hgo : ∀ out o₃, Ready eager r.ctx o₃ (kept eager r.src) → (w.to out r.ctx.w).given o₃ = w.given o ++ bs →
        (2 * (left r.ctx (kept eager r.src)).length + 2 ≤ k ∨ (kept eager r.src).nullify = kept eager r.src ∧
          o₃.len = OUTBUFLEN ∧ 2 * (left r.ctx (kept eager r.src)).length + 1 ≤ k) →
        ∃ w' o', sendLoop eager k (w.to out r.ctx.w) o₃ (kept eager r.src) = some (w', o') ∧
          Sends w (w.given o ++ left w.z.session src) w' o' := by
      intro out o₃ hready hgiven hk'
      rw [← hctx out] at hready hk'
      obtain ⟨w', o', hloop, out', ser, rfl, hgiven', hb⟩ := ih hready hk'
      refine ⟨_, o', hloop, out', ser, rfl, hgiven'.trans ?_, hb⟩
      rw [hgiven, hctx, left_kept, hc.left, List.append_assoc]
    rcases hc.ends with ⟨hne, hret, hevt, hp⟩ | ⟨hne, hret, hevt, htype⟩ | ⟨rfl, hret, hctx', hsrc, hstep⟩ |
      ⟨rfl, hret, hevt, htype⟩
    · have hpos := List.length_pos_iff.mpr hne
      rw [hret] at hm
      obtain ⟨out, o₃, h₃, hgiven, hidx₃, hlen₃, hroom₃, heager, hlazy⟩ := full_eq eager (w := w.to w.outputs r.ctx.w)
        (o := ⟨o.buf.store o.idx bs, o.idx + bs.length, o.len - bs.length⟩)
        (by simp only; omega) (by simp only; omega) (by simp only; omega)
      rw [sendLoop_turn hm (result_count _ _ (by omega)) h₃, if_pos (by omega)]
      have hfs : fieldsAt w.z.session src ≠ [] := by
        intro hnil
        rw [left, hnil, Fields.flat_nil, List.length_nil] at hlen
        omega
      refine hgo out o₃ (h.next hc hevt hp hfs hidx₃ hlen₃ hroom₃ (fun he => ⟨(heager he).1, Or.inr (heager he).2⟩)
        fun he => le_of_eq (hlazy he).symm) (hgiven.trans (given_store _ _ _ hidx)) (Or.inl (by omega))
    · have hpos := List.length_pos_iff.mpr hne
      rw [hret] at hm
      obtain ⟨out, o₃, h₃, hgiven, hidx₃, hlen₃, hroom₃, -⟩ := full_eq eager (w := w.to w.outputs r.ctx.w)
        (o := ⟨o.buf.store o.idx bs, o.idx + bs.length, o.len - bs.length⟩)
        (by simp only; omega) (by simp only; omega) (by simp only; omega)
      rw [sendLoop_turn hm (result_count _ _ (by omega)) h₃, if_pos (by omega)]
      obtain ⟨k, rfl⟩ : ∃ k', k = k' + 1 := ⟨k - 1, by omega⟩
      obtain ⟨w', o', hloop, out', ser, rfl, hgiven', hb⟩ := sendLoop_done eager k (w := w.to out r.ctx.w) (o := o₃)
        (kept eager r.src) (by rw [hctx]; exact hevt) (by rw [hctx]; exact htype) hidx₃ hlen₃ hroom₃
      refine ⟨_, o', hloop, out', ser, rfl, hgiven'.trans ?_, hb⟩
      rw [hc.left, left_nothing hevt, List.append_nil]
      exact hgiven.trans (given_store _ _ _ hidx)
    · -- The buffer is given away, and the next call finds room in an empty one.
      obtain ⟨rfl, hplain, hflag⟩ := h.suits.stuck h.placed h.takes h.evt h.nonneg h.le hstep
      rw [hret, store_nil] at hm
      have h₂ := result_stuck (w.to w.outputs r.ctx.w) o ⟨hidx, by have := h.len; omega⟩
      have h₃ : ∀ w : World, w.full true { o with idx := 0, len := OUTBUFLEN } = some (w, { o with idx := 0, len := OUTBUFLEN }) :=
        fun w => if_neg fun h => absurd h.2 (by decide : ¬0 = OUTBUFLEN)
      rw [sendLoop_turn hm h₂ (h₃ _), if_pos (by decide)]
      have hfs : fieldsAt w.z.session src ≠ [] := by
        intro hnil
        rw [hnil] at hstep
        cases hstep
      refine hgo _ _ (h.next hc (by rw [hctx']) (hctx' ▸ h.placed) hfs le_rfl (by decide : 0 ≤ OUTBUFLEN) rfl
        (fun _ => ⟨(by decide : 1 ≤ OUTBUFLEN), Or.inl hplain⟩) (by simp)) ?_
        (Or.inr ⟨nullify_nullify _, rfl, ?_⟩)
      · rw [List.append_nil]
        exact given_empty _ _ _
      · rw [List.length_nil, zero_add] at hlen
        rcases hk with hk | ⟨hk₁, hk₂, -⟩
        · omega
        · exact absurd ⟨hk₁, hk₂⟩ hflag
    · rw [hret, store_nil] at hm
      obtain ⟨out, o₃, h₃, hgiven, hidx₃, hlen₃, hroom₃, -⟩ := full_eq eager (w := w.to w.outputs r.ctx.w)
        (o := { o with idx := o.idx + 0, len := o.len - 0 }) (by simpa using hidx) (by simpa using h.len) (by simpa using hroom)
      rw [sendLoop_turn hm (result_count _ _ le_rfl) h₃, if_neg (by simp)]
      refine ⟨_, o₃, rfl, out, ⟨r.ctx.w, hevt, htype⟩, rfl, hgiven.trans ?_, hidx₃, by omega⟩
      rw [hc.left, left_nothing hevt, List.append_nil, List.append_nil, add_zero, sub_zero]
      rfl

/-! ### Senders -/

/-- `bs` was given away, the writer has no event, and nothing else changed. -/
structure Puts (w : World) (bs : List UInt8) (w' : World) : Prop where
  out : w'.stdout = w.stdout ++ bs
  idle : w'.z.session.Idle
  frame : w' = w.to w'.outputs w'.z.session.w

/-- The sender answers with 0, and gave away `bs`. -/
def Gives (w : World) (r : Option (Int × World)) (bs : List UInt8) : Prop := ∃ w', r = some (0, w') ∧ Puts w bs w'

theorem Puts.refl {w : World} (h : w.z.session.Idle) : Puts w [] w := ⟨(List.append_nil _).symm, h, rfl⟩

theorem Puts.trans {w w' w'' : World} {a b : List UInt8} (h : Puts w a w') (h' : Puts w' b w'') : Puts w (a ++ b) w'' where
  out := by rw [h'.out, h.out, List.append_assoc]
  idle := h'.idle
  frame := calc
    w'' = w'.to w''.outputs w''.z.session.w := h'.frame
    _ = (w.to w'.outputs w'.z.session.w).to w''.outputs w''.z.session.w := congrArg (World.to · _ _) h.frame
    _ = w.to w''.outputs w''.z.session.w := rfl

theorem Puts.curpv {w w' : World} {bs : List UInt8} (h : Puts w bs w') : w'.z.session.curpv = w.z.session.curpv := by
  rw [h.frame]
  rfl

theorem Puts.cent {w w' : World} {bs : List UInt8} (h : Puts w bs w') : w'.z.cent = w.z.cent := by
  rw [h.frame]
  rfl

theorem Puts.lcur {w w' : World} {bs : List UInt8} (h : Puts w bs w') : w'.z.lcur = w.z.lcur := by
  rw [h.frame]
  rfl

theorem Puts.withCtr {w w' : World} {bs : List UInt8} (n : Int) (h : Puts w bs w') :
    Puts (w.withCtr n) bs (w'.withCtr n) where
  out := h.out
  idle := h.idle
  frame := congrArg (World.withCtr · n) h.frame

/-- The events and payloads that `segeneric` is used for. -/
def Generic : Mcsevt → Src → Prop
  | .ping, .null | .lnew, .null | .ldim, .vec _ | .bupdate, .bup _ | .edied, .eid _ => True
  | .estate, .eup _ | .ediff, .eup _ | .eslide, .eup _ | .ehead, .eup _ => True
  | _, _ => False

/-- The events of the other senders. -/
def Eager : Mcsevt → Prop
  | .pgreeting | .ldata | .enew | .cmsg | .pbye => True
  | _ => False

/-- The world after the first call of a sender. -/
def World.started (w : World) (e : Mcsevt) : World := w.to w.outputs (startw w.z.session.curpv e true w.z.session.w.rem)

theorem mcswr_first {w : World} {e : Mcsevt} (hidle : w.z.session.Idle) (he : seencode e ≠ .invalid) :
    w.mcswr {} (.evt e) = some (1, w.started e,
      { buf := Ptr.store (fun _ => 0) 0 (writeb (Int8.ofInt (seencode e).code)) }, .evt e) := by
  have hstart := mcswr_start (q := OUTBUFLEN) hidle.1 hidle.2 he
  rw [if_pos (by decide)] at hstart
  have hpoke : poke OUTBUFLEN (fun _ => 0) ((storesAt 0 (writeb (Int8.ofInt (seencode e).code))).map fun st => (0 + st.1, st.2)) =
      some (Ptr.store (fun _ => 0) 0 (writeb (Int8.ofInt (seencode e).code))) := by
    rw [Turns.map_add_storesAt]
    exact poke_storesAt le_rfl (by simp [OUTBUFLEN])
  simp only [World.mcswr, hstart, hpoke, Option.bind_eq_bind, Option.bind_some]
  rfl

theorem started_w (w : World) (e : Mcsevt) :
    (w.started e).z.session.w = ⟨MCSTRLEN, e, if e = .pgreeting ∧ 0 = w.z.session.curpv then 2 else 1⟩ := startw_eq _ _ _

theorem encode_started (w : World) (e : Mcsevt) (src : Src) :
    encode w.z.session.curpv e src =
      writeb (Int8.ofInt (seencode e).code) ++ left (w.started e).z.session src := encode_eq

/-- What a sender does after its first call, with `num` in its buffer. -/
theorem sendRest_gives {eager : Bool} {w : World} {e : Mcsevt} {src : Src} {o : Out} (he : seencode e ≠ .invalid)
    (hcasts : e.Casts src) (hnn : src.NonNeg) (hidx : o.idx = 0) (hlen : o.len = OUTBUFLEN)
    (hsuits : Suits eager (w.started e).z.session 15 src) :
    Gives w (sendRest eager 1 (w.started e) o src) (o.buf.take 1 ++ left (w.started e).z.session src) := by
  obtain ⟨buf, idx, len⟩ := o
  obtain rfl : idx = 0 := hidx
  obtain rfl : len = OUTBUFLEN := hlen
  have hevt : (w.started e).z.session.w.evt = e := by rw [started_w]
  have hne : (w.started e).z.session.w.evt ≠ .nothing := fun h => he (by rw [← hevt, h]; rfl)
  have hready : Ready eager (w.started e).z.session ⟨buf, 0 + 1, OUTBUFLEN - 1⟩ src := by
    refine ⟨hne, startw_placed he, ?_, ?_, hnn, by simp, (by decide : 0 ≤ OUTBUFLEN - 1), rfl, hsuits⟩
    · simp only [World.started, World.to, startw_eq]
      exact remains_str
    · rwa [Takes, if_neg hne, hevt]
  have hle : (left (w.started e).z.session src).length ≤ 1027 := by
    have h := encode_length_le w.z.session.curpv e src
    rw [encode_started, List.length_append, length_writeb] at h
    omega
  obtain ⟨w', o', hloop, out, ser, rfl, hgiven, hb⟩ := sendLoop_sends (k := 4096) hready (Or.inl (by omega))
  have hout : ((w.started e).to out ser).given o' =
      w.stdout ++ (buf.take 1 ++ left (w.started e).z.session src) := by
    rw [hgiven, ← List.append_assoc]
    rfl
  rw [sendRest, if_pos (by decide)]
  simp only [hloop, World.output, if_pos hb, Option.bind_eq_bind, Option.bind_some]
  exact ⟨_, rfl, List.flatten_concat.trans hout, ser.property, rfl⟩

theorem segeneric_gives {w : World} (e : Mcsevt) (param : Src) (hidle : w.z.session.Idle) (h : Generic e param) :
    Gives w (segeneric w e param) (packet w.z.session.curpv e param) := by
  have hbare : seencode e ≠ .invalid ∧ e.Casts param ∧ Bare param ∧ param.NonNeg ∧
      (encode w.z.session.curpv e param).length ≤ 10 := by
    cases e <;> cases param <;> first | exact h.elim | exact ⟨by decide, trivial, trivial, trivial, by simp [encode, layout]⟩
  obtain ⟨he, hcasts, hbare, hnn, hlen⟩ := hbare
  have henc := encode_started w e param
  have hsuits : Suits false (w.started e).z.session 15 param := by
    rw [henc, List.length_append, length_writeb] at hlen
    exact ⟨hbare, by omega⟩
  have hv : (w.started e).z.session.curpv = w.z.session.curpv := rfl
  simp only [segeneric, mcswr_first hidle he, Option.bind_eq_bind, Option.bind_some, hv]
  by_cases hdied : .edied = e ∧ 0 = w.z.session.curpv
  · rw [if_pos hdied, packet, if_pos hdied, henc]
    exact sendRest_gives he hcasts hnn rfl rfl hsuits
  · rw [if_neg hdied, packet, if_neg hdied, henc]
    exact sendRest_gives he hcasts hnn rfl rfl hsuits

theorem send_gives {w : World} {e : Mcsevt} {src : Src} (hidle : w.z.session.Idle) (he : Eager e) (hcasts : e.Casts src)
    (hnn : src.NonNeg) : Gives w (send w e src) (packet w.z.session.curpv e src) := by
  have hop : seencode e ≠ .invalid := by
    intro h
    cases e <;> first | exact he.elim | cases h
  have henc := encode_started w e src
  have hevt := started_w w e
  have hsuits : Suits true (w.started e).z.session 15 src := by
    refine ⟨by decide, ?_⟩
    by_cases hplain : Plain e
    · exact Or.inl (by rwa [hevt])
    · obtain rfl : e = .enew := by
        cases e <;> first | exact he.elim | rfl | exact absurd (by simp [Plain]) hplain
      refine Or.inr ⟨by rw [hevt], ?_, Or.inr (by rw [hevt]; rfl)⟩
      have hlen : (encode w.z.session.curpv .enew src).length = 74 := by
        cases src <;> first | exact hcasts.elim | simp [encode, layout]
      rw [henc, List.length_append, length_writeb] at hlen
      omega
  simp only [send, mcswr_first hidle hop, Option.bind_eq_bind, Option.bind_some]
  rw [packet_eq fun h => by rw [← h] at he; exact he.elim, henc]
  exact sendRest_gives hop hcasts hnn rfl rfl hsuits

end ClassicX
