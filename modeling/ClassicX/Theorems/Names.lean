import ClassicX.Theorems.Serving

/-! The name of the player. It is there, and has a length, exactly where a name was read and the last one that was
read is not too long: a name that is too long leaves -1 for its length, and the session goes on. -/

namespace ClassicX

def lastName : List Iter → Option Ptr
  | [] => none
  | t :: h => if t.ct = .name ∧ 0 ≤ t.qty then some t.rd.inbuf else lastName h

/-- The player is called by the name `name`. -/
def Called (w : World) : Option Ptr → Prop
  | none => w.name = (none, 0)
  | some name => w.z.cent.enam ≠ none ∧ (Long name → w.z.cent.enln = -1) ∧
      (¬Long name → 1 ≤ w.z.cent.enln ∧ w.z.cent.enln ≤ 20)

theorem Called.of_name {w w' : World} {name : Option Ptr} (h : Called w name) (hname : w'.name = w.name) :
    Called w' name := by
  obtain ⟨henam, henln⟩ := Prod.mk.inj hname
  cases name with
  | none => exact hname.trans h
  | some name =>
    rw [Called, henam, henln]
    exact h

theorem save_called (w : World) : Called (ctname.save w).2 (some w.inbuf) :=
  ⟨nofun, (save_length w).1, (save_length w).2⟩

theorem step_called {h : List Iter} {t : Iter} (hs : Serves t.ct t.w) (hname : Called t.w (lastName h))
    (hok : start.loop.Ok t) : Called t.w' (lastName (t :: h)) := by
  rw [lastName]
  rcases Iter.cases hs hok with ⟨hneg, -, hw⟩ | ⟨hqty, -, s, dst, v, ps, hread, -, ho⟩
  · rw [if_neg (by omega), hw]
    exact hname.of_name t.rd_name
  · have hgave := (Iter.gave hs.fit (mcsread_frame hread).2.1 ho).1
    by_cases hct : t.ct = .name
    · rw [if_pos ⟨hct, hqty⟩]
      have hsaved := save_called (t.rd.withSession s)
      refine hsaved.of_name ?_
      rw [hgave.name, World.saved, if_pos hct]
    · rw [if_neg fun h => hct h.1]
      refine hname.of_name ?_
      rw [hgave.name, World.saved, if_neg hct]
      exact t.rd_name

theorem starts_called {ldefault : Ptr} {ldsize : Int16} {lddim : Mcvec} {stdin : List UInt8} {h : List Iter}
    {s : Mcctyp × World} (hrun : Starts ldefault ldsize lddim stdin h s) : Serves s.1 s.2 ∧ Called s.2 (lastName h) := by
  have hinit : Called (csetup (lload ldefault ldsize lddim) stdin) none := rfl
  exact hrun.inv (fun h s => Serves s.1 s.2 ∧ Called s.2 (lastName h)) ⟨csetup_serves ldefault ldsize lddim stdin, hinit⟩
    fun _ _ hinv hok => ⟨step_serves hinv.1 hok, step_called hinv.1 hinv.2 hok⟩

/-! ### The uses of the name -/

/-- The name is fit for its uses: a message is stored inside of `msg`, a spawn has the name, and no count is
    negative. -/
structure Named (w : World) : Prop where
  enam : w.z.cent.enam ≠ none
  enln : 0 ≤ w.z.cent.enln ∧ w.z.cent.enln ≤ 20
  stores : ∀ enam src qty, w.z.cent.enam = some enam → 0 ≤ qty →
    ∀ st ∈ (ctmsg.echo enam w.z.cent.enln src qty).1, 0 ≤ st.1 ∧ st.1 ≤ 63
  mcopy : ∀ enam src qty, w.z.cent.enam = some enam → 0 ≤ qty → 0 ≤ (ctmsg.echo enam w.z.cent.enln src qty).2
  clip : ∀ qty, 0 ≤ qty → 0 ≤ Fields.clip w.z.cent.enam w.z.cent.enln qty
  spawn : ∀ e : Mcent, e.enam = w.z.cent.enam → e.enln = w.z.cent.enln →
    Gives w (senewactr w e) (packet w.z.session.curpv .enew (.eno (senewactr.ent e)))

theorem named_of {w : World} (hidle : w.z.session.Idle) (henam : w.z.cent.enam ≠ none)
    (hlen : 0 ≤ w.z.cent.enln ∧ w.z.cent.enln ≤ 20) : Named w where
  enam := henam
  enln := hlen
  stores enam src _ _ hqty := (echo_stores enam src hlen hqty).1
  mcopy enam src _ _ hqty := (echo_stores enam src hlen hqty).2
  clip qty hqty := by
    rw [Fields.clip]
    split <;> omega
  spawn e _ henln := senewactr_gives hidle fun _ => henln ▸ hlen.1

/-- The name is fit for its uses exactly if a name was read and the last one is not too long. -/
theorem name_fit_iff {ldefault : Ptr} {ldsize : Int16} {lddim : Mcvec} {stdin : List UInt8} {h : List Iter}
    {ct : Mcctyp} {w : World} (hrun : Starts ldefault ldsize lddim stdin h (ct, w)) :
    Named w ↔ ∃ name, lastName h = some name ∧ ¬Long name := by
  obtain ⟨hs, hname⟩ := starts_called hrun
  cases hlast : lastName h with
  | none =>
    rw [hlast] at hname
    exact ⟨fun hfit => absurd (congrArg Prod.fst hname) hfit.enam, fun ⟨_, h, _⟩ => nomatch h⟩
  | some name =>
    rw [hlast] at hname
    obtain ⟨henam, hlong, hshort⟩ := hname
    constructor
    · intro hfit
      refine ⟨name, rfl, fun h => ?_⟩
      have hlen : w.z.cent.enln = -1 := hlong h
      have := hfit.enln
      omega
    · rintro ⟨name', hname', h⟩
      obtain rfl := Option.some.inj hname'
      have hlen : 1 ≤ w.z.cent.enln ∧ w.z.cent.enln ≤ 20 := hshort h
      exact named_of hs.fit.idle henam (by omega)

/-- The name of a greeting is fit. -/
theorem name_fit_iff_greeting : ∃ (h : List Iter) (ct : Mcctyp) (w : World),
    Starts (fun _ => 0) 0 {} (0 :: 7 :: 65 :: List.replicate 63 32) h (ct, w) ∧ ct = .pass ∧
    (Named w ↔ ∃ name, lastName h = some name ∧ ¬Long name) :=
  ⟨_, _, _, starts_steps (fun _ => 0) 0 {} (0 :: 7 :: 65 :: List.replicate 63 32) 3, rfl,
    name_fit_iff (starts_steps (fun _ => 0) 0 {} (0 :: 7 :: 65 :: List.replicate 63 32) 3)⟩

/-- A message before any greeting meets no name, and a message after a name that is too long meets a length of -1. -/
theorem message_misnamed :
    (∃ (h : List Iter) (w : World), Starts (fun _ => 0) 0 {} [13, 0, 72] h (.msg, w) ∧
      0 ≤ (cloop.read w .msg).1 ∧ w.z.cent.enam = none) ∧
    ∃ (h : List Iter) (w : World), Starts (fun _ => 0) 0 {} (0 :: 1 :: List.replicate 64 65 ++ [13, 0, 72]) h (.msg, w) ∧
      0 ≤ (cloop.read w .msg).1 ∧ w.z.cent.enln = -1 :=
  ⟨⟨_, _, starts_steps (fun _ => 0) 0 {} [13, 0, 72] 2, by decide, rfl⟩,
    ⟨_, _, starts_steps (fun _ => 0) 0 {} (0 :: 1 :: List.replicate 64 65 ++ [13, 0, 72]) 5, by decide, rfl⟩⟩

end ClassicX
