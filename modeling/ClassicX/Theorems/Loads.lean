import ClassicX.Theorems.Agreement

/-! The level of a client: after every packet a client has no level, or the whole level of the server. -/

namespace ClassicX
open Formats Formats.Format
open Runs (Run)

/-! ### What a client has -/

/-- What a client has of a level: its bytes, and its dimensions once it is complete. -/
structure Loading where
  bytes : List UInt8 := []
  dim : Option Mcvec := none
  deriving DecidableEq

/-- A new level starts without bytes. Of every array, as many bytes as are declared belong to the level. -/
def Loading.hears {v : Int} (c : Loading) : Heard v → Loading
  | ⟨.lnew, _⟩ => {}
  | ⟨.ldata, len, data, _⟩ => { c with bytes := c.bytes ++ data.val.take len.toInt.toNat }
  | ⟨.ldim, dim⟩ => { c with dim := some dim }
  | _ => c

/-- The whole level. -/
def Loading.whole (l : Lvl) : Loading := ⟨l.cdat.take l.filelen.toNat, some l.dim⟩

/-- What is no part of a level. -/
def Mcsevt.still : Mcsevt → Bool
  | .lnew => false
  | .ldata => false
  | .ldim => false
  | _ => true

section Loadings
variable {v : Int} {c : Loading} {l : Lvl} {ts us : List (Heard v)}

theorem still_one {t : Heard v} (ht : t.1.still) : ∀ u ∈ [t], u.1.still := by simpa using ht

theorem still_append (h : ∀ t ∈ ts, t.1.still) (h' : ∀ t ∈ us, t.1.still) : ∀ t ∈ ts ++ us, t.1.still := by
  intro t ht
  rcases List.mem_append.mp ht with ht | ht
  · exact h t ht
  · exact h' t ht

theorem greets_still (h : ∀ t ∈ ts, t.1.plain ∨ t.1 = .pgreeting) : ∀ t ∈ ts, t.1.still := by
  intro t ht
  have hkind := h t ht
  generalize t.1 = e at hkind ⊢
  cases e <;> first | rfl | (rcases hkind with hkind | hkind <;> cases hkind)

theorem plain_still (h : ∀ t ∈ ts, t.1.plain) : ∀ t ∈ ts, t.1.still := greets_still fun t ht => Or.inl (h t ht)

theorem hears_still {t : Heard v} (ht : t.1.still) : c.hears t = c := by
  obtain ⟨e, said⟩ := t
  cases e <;> first | rfl | cases ht

theorem foldl_still (h : ∀ t ∈ ts, t.1.still) : ts.foldl Loading.hears c = c := by
  induction ts with
  | nil => rfl
  | cons t ts ih =>
    rw [List.foldl_cons, hears_still (h t List.mem_cons_self)]
    exact ih fun u hu => h u (List.mem_cons_of_mem _ hu)

/-- The declared bytes of an array of at most 1024 bytes. -/
theorem take_declared (p : Ptr) {len : Int} (h0 : 0 ≤ len) (h : len ≤ 1024) :
    (Arr.of p len).val.take (Int16.ofInt len).toInt.toNat = p.take len.toNat := by
  obtain ⟨n, rfl⟩ := Int.eq_ofNat_of_zero_le h0
  have hval : (Arr.of p n).val = Fields.text (some p) n 0 1024 := by simp [Arr.of, arrField, Fields.Item.flat, MCARRAYLEN]
  rw [Int16.toInt_ofInt_of_le (by omega) (by omega), Int.toNat_natCast, hval]
  exact text_take p 0 (by omega)

theorem clen_range {j : ℕ} (hj : j < l.chunks) : 0 ≤ l.clen j ∧ l.clen j ≤ 1024 := by
  have hchunks : j < ((l.filelen + 1023) / 1024).toNat := hj
  rw [Lvl.clen, MCARRAYLEN]
  omega

/-- The pieces of the level, one after the other, are the level. -/
theorem flatMap_pieces : ((List.range l.chunks).flatMap fun j : ℕ => Ptr.take (l.cdat.incr (1024 * j)) (l.clen j).toNat) =
    l.cdat.take l.filelen.toNat := by
  rcases le_or_gt l.filelen 0 with hneg | hpos
  · have hchunks : l.chunks = 0 := by
      rw [Lvl.chunks]
      omega
    have hnone : l.filelen.toNat = 0 := Int.toNat_eq_zero.mpr hneg
    rw [hchunks, hnone]
    rfl
  · have hchunks : (l.chunks : Int) = (l.filelen + 1023) / 1024 := by
      rw [Lvl.chunks]
      omega
    have hpieces := flatMap_part (v := 0) (l := l) (m := l.chunks) (j := 0) (by push_cast; omega) (by push_cast; omega)
      (by push_cast; omega)
    have hstart : l.cdat.incr (1024 * (0 : ℕ)) = l.cdat := by
      funext i
      simp [Fields.Source.incr]
    rw [hstart, Nat.cast_zero, mul_zero, sub_zero] at hpieces
    rw [← hpieces, List.flatMap_map, List.range_eq_range']
    refine List.flatMap_congr fun j hj => ?_
    exact (part_chunk (clen_range (List.mem_range.mp (List.range_eq_range' ▸ hj))).1).symm

/-- What a client hears when it joins is the whole level, whatever it had before. -/
theorem foldl_joins : (Heard.joins v l).foldl Loading.hears c = .whole l := by
  have hdata : ∀ (n : ℕ) (c : Loading), n ≤ l.chunks → ((List.range n).map fun j =>
      (⟨.ldata, (Int16.ofInt (l.clen j), Arr.of (l.cdat.incr (1024 * j)) (l.clen j), 0)⟩ : Heard v)).foldl Loading.hears c =
        { c with bytes := c.bytes ++ (List.range n).flatMap fun j : ℕ => Ptr.take (l.cdat.incr (1024 * j)) (l.clen j).toNat } := by
    intro n c hn
    induction n with
    | zero => simp
    | succ n ih =>
      obtain ⟨h0, hlen⟩ := clen_range (l := l) (j := n) (by omega)
      rw [List.range_succ, List.map_append, List.foldl_append, ih (by omega), List.flatMap_append, List.flatMap_singleton,
        ← List.append_assoc, ← take_declared _ h0 hlen]
      rfl
  have hspawns : ∀ t ∈ ([.spawn (-1) (text "You") ⟨512, 492, 512⟩ ⟨224, 64⟩, .spawn 0 (text "&8You") ⟨512, 512, 512⟩ ⟨96, 64⟩,
      .ping] : List (Heard v)), t.1.still := by
    intro t ht
    simp only [List.mem_cons, List.not_mem_nil, or_false] at ht
    rcases ht with rfl | rfl | rfl <;> rfl
  have hfirst : ([.greeting v, ⟨.lnew, ()⟩] : List (Heard v)).foldl Loading.hears c = {} := rfl
  rw [Heard.joins, List.foldl_append, List.foldl_append, hfirst, hdata _ _ le_rfl, flatMap_pieces, List.foldl_cons,
    foldl_still hspawns]
  rfl

theorem partakes_still {plays : Bool} (h : ∀ t ∈ ts, t.1.still) (hplays : partakes plays (kinds ts) = true) : plays = true := by
  induction ts generalizing plays with
  | nil => exact hplays
  | cons t ts ih =>
    have hlater : (if t.1 = .lnew then true else if t.1 = .pbye then false else plays) = true :=
      ih (fun u hu => h u (List.mem_cons_of_mem _ hu)) hplays
    have ht := h t List.mem_cons_self
    split at hlater
    case isTrue heq =>
      rw [heq] at ht
      cases ht
    case isFalse => exact (ite_eq_iff.mp hlater).elim (fun h => absurd h.2 Bool.false_ne_true) And.right

end Loadings

/-! ### One packet -/

section Packets
variable {l : Lvl} {s : Player}

/-- Behind what is no part of a level, the answer is at its end, or a client joins. -/
def Answer.Shaped (l : Lvl) (x : Answer) : Prop :=
  ∃ ts, (∀ t ∈ ts, t.1.still) ∧ (x.heard = ts ∨ x.heard = ts ++ Heard.joins x.next.pv l)

theorem greeted_shaped {v : Int} (version : Known v) (name : Str) : (s.greeted l v version name).Shaped l := by
  rw [Player.greeted]
  split
  · exact ⟨[], fun t ht => absurd ht List.not_mem_nil, Or.inr rfl⟩
  · simp only
    split
    · exact ⟨_, still_one (v := v) rfl, Or.inl rfl⟩
    · exact ⟨_, still_one (v := v) rfl, Or.inr rfl⟩

theorem state_shaped {epos : Mcvec} {head : Mchead} {x : Answer} (h : s.state l epos head = some x) : x.Shaped l := by
  have hping : ∀ t ∈ ([.ping] : List (Heard s.pv)), t.1.still := still_one rfl
  have hmoves := still_append (plain_still (moves_plain epos head)) hping
  rw [Player.state] at h
  split at h
  case isTrue hwaits =>
    cases h
    exact ⟨_, hping, Or.inl rfl⟩
  case isFalse hplays =>
    split at h
    case isTrue hlow =>
      obtain ⟨ts, hts, rfl⟩ := Option.map_eq_some_iff.mp h
      have hagain : ∀ t ∈ (ts : List (Heard s.pv)), t.1.still := greets_still (again_plain (s := s.moved epos head) hts)
      exact ⟨_, still_append hmoves hagain, Or.inl rfl⟩
    case isFalse hhigh =>
      cases h
      exact ⟨_, hmoves, Or.inr rfl⟩

theorem message_shaped {msg : Str} {x : Answer} (h : s.message msg = some x) : x.Shaped l := by
  have hping : ∀ t ∈ ([.ping] : List (Heard s.pv)), t.1.still := still_one rfl
  rw [Player.message] at h
  split at h
  case isTrue => cases h
  case isFalse =>
    split at h
    case isTrue =>
      obtain ⟨ts, hts, rfl⟩ := Option.map_eq_some_iff.mp h
      have horders : ∀ t ∈ ts, t.1.still := by
        by_cases hc : msg.val.getD 1 0 = 0x71
        · rw [hc] at hts
          cases (orders_quit msg).symm.trans hts
          exact still_one rfl
        · exact plain_still (orders_plain hts hc)
      exact ⟨_, still_append horders hping, Or.inl rfl⟩
    case isFalse =>
      split at h <;> cases h
      exact ⟨_, still_append (still_one rfl) hping, Or.inl rfl⟩

theorem answer_shaped {a : Asked} {x : Answer} (h : s.answer l a = some x) : x.Shaped l := by
  cases a with
  | greeting0 name printable =>
    cases h
    exact greeted_shaped known_zero name
  | greeting v known name pass flags =>
    cases h
    exact greeted_shaped (known_of known) name
  | blkedit upd =>
    rw [Player.answer] at h
    split at h <;> cases h
    exact ⟨_, still_append (still_one (v := s.pv) rfl) (still_one rfl), Or.inl rfl⟩
  | plyrstat eno epos head => exact state_shaped h
  | chatmsg eno msg => exact message_shaped h

/-! ### Sequences -/

/-- A client has no level or the whole level, and who takes part has it. -/
def Player.Loads (l : Lvl) (s : Player) (c : Loading) : Prop := (c = {} ∨ c = .whole l) ∧ (s.plays = true → c = .whole l)

theorem answer_loads {a : Asked} {x : Answer} {c : Loading} (h : s.answer l a = some x) (hc : s.Loads l c) :
    x.next.Loads l (x.heard.foldl Loading.hears c) := by
  obtain ⟨ts, hts, hheard | hheard⟩ := answer_shaped h
  · have hplays := answer_partakes h
    rw [hheard] at hplays ⊢
    rw [foldl_still hts]
    exact ⟨hc.1, fun hnext => hc.2 (partakes_still hts (hplays.symm.trans hnext))⟩
  · rw [hheard, List.foldl_append, foldl_joins]
    exact ⟨Or.inr rfl, fun _ => rfl⟩

theorem answers_loads {v : Int} {as : List Asked} {s' : Player} {c : Loading} (h : (s.answers l as).2 = some s')
    (hpv : ∀ x ∈ (s.answers l as).1, x.next.pv = v) (hc : s.Loads l c) :
    s'.Loads l (((s.answers l as).1.flatMap (Answer.hears v)).foldl Loading.hears c) := by
  induction as generalizing s c with
  | nil =>
    obtain rfl : s = s' := Option.some.inj h
    exact hc
  | cons a as ih =>
    cases hx : s.answer l a with
    | none =>
      rw [answers_none hx] at h
      cases h
    | some x =>
      rw [answers_cons hx] at h hpv ⊢
      have hnext := answer_loads hx hc
      have hhears : (x.hears v).foldl Loading.hears c = x.heard.foldl Loading.hears c := by
        obtain rfl := hpv x List.mem_cons_self
        rw [Answer.hears, dif_pos rfl]
      rw [List.flatMap_cons, List.foldl_append, hhears]
      exact ih h (fun y hy => hpv y (List.mem_cons_of_mem _ hy)) hnext

end Packets

section Runs
variable (ldefault : Ptr) (ldsize : Int16) (lddim : Mcvec)

/-- A client that greets with the version `v` first, and with no other version later, has after every packet no level or the
    whole level of the server, and the whole level if the server takes it for a player, unless a step is not defined. -/
theorem starts_loads (a : Asked) (as : List Asked) {v : Int} (ha : a.version = some v)
    (has : ∀ b ∈ as, b.version = none ∨ b.version = some v) (rest : List UInt8) :
    ∃ h ct w, Starts ldefault ldsize lddim ((a :: as).flatMap Asked.form.write ++ rest) h (ct, w) ∧
      (ct = .evtno ∧ w.stdin.rest = rest ∧
          (((Heard.form v).all w.stdout).1.foldl Loading.hears {} = {} ∨
            ((Heard.form v).all w.stdout).1.foldl Loading.hears {} = .whole (lload ldefault ldsize lddim)) ∧
          (w.z.flg ≠ 0 → ((Heard.form v).all w.stdout).1.foldl Loading.hears {} = .whole (lload ldefault ldsize lddim)) ∨
        ct ≠ .invalid ∧ cloop w ct = none) := by
  obtain ⟨h, ct, w, hrun, ⟨p, hp, hct, hrest, hconforms, hpv, hheard⟩ | hend⟩ := client_hears ldefault ldsize lddim a as ha has
    rest
  · obtain ⟨hlevel, hplays⟩ := answers_loads (c := {}) hp hpv ⟨Or.inl rfl, fun h => by cases h⟩
    refine ⟨h, ct, w, hrun, Or.inl ⟨hct, hrest, ?_, fun hflg => ?_⟩⟩
    · rw [hheard]
      exact hlevel
    · rw [hheard]
      exact hplays (hconforms.plays.mp hflg)
  · exact ⟨h, ct, w, hrun, Or.inr hend⟩

/-- A level of three bytes. -/
theorem starts_loads_three : ∃ h ct w,
    Starts (fun _ => 7) 3 ⟨1, 1, 3⟩ ([.greeting0 letterName (by decide)].flatMap Asked.form.write ++ []) h (ct, w) ∧
      (ct = .evtno ∧ (((Heard.form 0).all w.stdout).1.foldl Loading.hears {} = {} ∨
          ((Heard.form 0).all w.stdout).1.foldl Loading.hears {} = ⟨[7, 7, 7], some ⟨1, 1, 3⟩⟩) ∨
        ct ≠ .invalid ∧ cloop w ct = none) := by
  obtain ⟨h, ct, w, hrun, hend⟩ := starts_loads (fun _ => 7) 3 ⟨1, 1, 3⟩ (.greeting0 letterName (by decide)) [] rfl nofun []
  exact ⟨h, ct, w, hrun, hend.imp_left fun hend => ⟨hend.1, hend.2.2.1⟩⟩

end Runs

end ClassicX
