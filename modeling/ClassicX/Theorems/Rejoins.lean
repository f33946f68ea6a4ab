import ClassicX.Theorems.Conversations

/-! A player who stays is sent the level again after every 1024 states, and both entities half way, whatever else he sends. -/

namespace ClassicX
open Formats Formats.Format

/-- How many events of the kind `e` are heard. -/
def heardOf {v : Int} (e : Mcsevt) (ts : List (Heard v)) : ℕ := (ts.map Sigma.fst).count e

/-- The number of states in a packet. -/
def Asked.states : Asked → ℕ
  | .plyrstat _ _ _ => 1
  | _ => 0

/-- The packet is neither a greeting nor the command to quit. -/
def Asked.Stays : Asked → Prop
  | .greeting0 _ _ => False
  | .greeting _ _ _ _ _ => False
  | .chatmsg _ msg => ¬(msg.val.getD 0 0 = 0x2F ∧ msg.val.getD 1 0 = 0x71)
  | _ => True

/-- The player takes part under a name. -/
def Player.Settled (s : Player) : Prop := s.plays = true ∧ ∃ name, s.name = .known name

/-! ### Counting -/

section Counts
variable {v : Int} {e : Mcsevt} {ts us : List (Heard v)}

@[simp] theorem heardOf_nil : heardOf e ([] : List (Heard v)) = 0 := rfl

@[simp] theorem heardOf_append : heardOf e (ts ++ us) = heardOf e ts + heardOf e us := by
  simp [heardOf]

theorem heardOf_none (h : ∀ t ∈ ts, t.1 ≠ e) : heardOf e ts = 0 := by
  rw [heardOf, List.count_eq_zero]
  intro he
  obtain ⟨t, ht, rfl⟩ := List.mem_map.mp he
  exact h t ht rfl

theorem heardOf_hears {x : Answer} (h : x.next.pv = v) : heardOf e (x.hears v) = heardOf e x.heard := by
  subst h
  rw [Answer.hears, dif_pos rfl]

theorem heardOf_answers {xs : List Answer} (h : ∀ x ∈ xs, x.next.pv = v) :
    heardOf e (xs.flatMap (Answer.hears v)) = (xs.map fun x => heardOf e x.heard).sum := by
  induction xs with
  | nil => rfl
  | cons x xs ih =>
    rw [List.flatMap_cons, heardOf_append, heardOf_hears (h x List.mem_cons_self), List.map_cons, List.sum_cons,
      ih fun y hy => h y (List.mem_cons_of_mem _ hy)]

theorem heardOf_joins (l : Lvl) : heardOf .lnew (Heard.joins v l) = 1 ∧ heardOf .pgreeting (Heard.joins v l) = 1 := by
  have hchunks : ∀ e, e ≠ .ldata → heardOf e ((List.range l.chunks).map fun j =>
      (⟨.ldata, (Int16.ofInt (l.clen j), Arr.of (l.cdat.incr (1024 * j)) (l.clen j), 0)⟩ : Heard v)) = 0 := by
    intro e he
    refine heardOf_none fun t ht => ?_
    obtain ⟨j, -, rfl⟩ := List.mem_map.mp ht
    exact he.symm
  constructor <;> rw [Heard.joins, heardOf_append, heardOf_append, hchunks _ (by decide)] <;> rfl

end Counts

/-! ### One packet -/

section Packets
variable {l : Lvl} {s : Player}

theorem heardOf_plain {v : Int} {e : Mcsevt} (he : e.plain = false) {ts : List (Heard v)} (h : ∀ t ∈ ts, t.1.plain) :
    heardOf e ts = 0 := by
  refine heardOf_none fun t ht heq => ?_
  have hplain := h t ht
  rw [heq, he] at hplain
  cases hplain

/-- The counter after a packet with `n` states. -/
def after (ctr n : ℕ) : ℕ := if n = 0 then ctr else if ctr < 1024 then ctr + 1 else 1

theorem again_count (hname : ∃ name, s.name = .known name) : ∃ ts, s.again = some ts ∧ heardOf .lnew ts = 0 ∧
    heardOf .pgreeting ts = if s.ctr = 512 then 1 else 0 := by
  obtain ⟨name, hname⟩ := hname
  rw [Player.again]
  by_cases h512 : s.ctr = 512
  · rw [if_pos h512, if_pos h512, Player.respawns, hname]
    exact ⟨_, rfl, rfl, rfl⟩
  · rw [if_neg h512, if_neg h512]
    exact ⟨[], rfl, rfl, rfl⟩

theorem state_answer (hs : s.Settled) (epos : Mcvec) (head : Mchead) : ∃ x, s.state l epos head = some x ∧ x.next.Settled ∧
    x.next.pv = s.pv ∧ x.next.ctr = after s.ctr 1 ∧
    heardOf .lnew x.heard = (if s.ctr = 1024 then 1 else 0) ∧
    heardOf .pgreeting x.heard = if s.ctr = 512 ∨ s.ctr = 1024 then 1 else 0 := by
  obtain ⟨hplays, hname⟩ := hs
  have hwaits : ¬s.plays = false := by simp [hplays]
  have hctr := s.counted hplays
  have hmoves : ∀ {e : Mcsevt} (us : List (Heard s.pv)), e.plain = false →
      heardOf e (s.moves epos head ++ [.ping] ++ us) = heardOf e us := by
    intro e us he
    rw [heardOf_append, heardOf_append, heardOf_plain he (moves_plain epos head), heardOf_plain he (plain_one rfl), Nat.zero_add]
  rw [Player.state, dif_neg hwaits]
  by_cases hlow : s.ctr < 1024
  · have hno : ¬s.ctr = 1024 := by omega
    have hctr : s.ctr + 1 = after s.ctr 1 := by simp [after, hlow]
    obtain ⟨ts, hts, hlevel, hgreeting⟩ := again_count (s := s.moved epos head) hname
    have hgreeting : heardOf .pgreeting ts = if s.ctr = 512 ∨ s.ctr = 1024 then 1 else 0 :=
      Eq.trans hgreeting (if_congr (by simp [hno, Player.moved]) rfl rfl)
    have hlevel := (hmoves (e := .lnew) ts rfl).trans hlevel
    have hgreeting := (hmoves (e := .pgreeting) ts rfl).trans hgreeting
    rw [dif_pos hlow, hts, if_neg hno]
    exact ⟨_, rfl, ⟨hplays, hname⟩, rfl, hctr, hlevel, hgreeting⟩
  · have hyes : s.ctr = 1024 := by omega
    have hctr : 1 = after s.ctr 1 := by simp [after, hyes]
    obtain ⟨hlevel, hgreeting⟩ := heardOf_joins (v := s.pv) l
    rw [dif_neg hlow, if_pos hyes, if_pos (Or.inr hyes)]
    exact ⟨_, rfl, ⟨hplays, hname⟩, rfl, hctr, (hmoves (e := .lnew) _ rfl).trans hlevel,
      (hmoves (e := .pgreeting) _ rfl).trans hgreeting⟩

/-- A packet of a player who stays is answered, and what is counted of the answer follows from the counter. -/
theorem stays_answer (a : Asked) (hs : s.Settled) (ha : a.Stays) : ∃ x, s.answer l a = some x ∧ x.next.Settled ∧
    x.next.pv = s.pv ∧ x.next.ctr = after s.ctr a.states ∧
    heardOf .lnew x.heard = (if s.ctr = 1024 then a.states else 0) ∧
    heardOf .pgreeting x.heard = if s.ctr = 512 ∨ s.ctr = 1024 then a.states else 0 := by
  obtain ⟨hplays, name, hname⟩ := hs
  have hknown : s.name ≠ .unknown := by
    rw [hname]
    exact (known_unlike name).1
  cases a with
  | greeting0 name printable => exact ha.elim
  | greeting v known name pass flags => exact ha.elim
  | blkedit upd =>
    exact ⟨_, if_neg hknown, ⟨hplays, name, hname⟩, rfl, rfl, (ite_self 0).symm, (ite_self 0).symm⟩
  | chatmsg eno msg =>
    have hanswer : s.answer l (.chatmsg eno msg) = s.message msg := rfl
    rw [hanswer, Player.message, if_neg hknown]
    by_cases hslash : msg.val.getD 0 0 = 0x2F
    · rw [if_pos hslash]
      obtain ⟨ts, hts⟩ : ∃ ts, s.orders msg (msg.val.getD 1 0) = some ts := by
        refine Option.ne_none_iff_exists'.mp fun hnone => ?_
        exact (orders_none.mp hnone).2 name hname
      have hq : msg.val.getD 1 0 ≠ 0x71 := fun hq => ha ⟨hslash, hq⟩
      have hstays : (s.plays && msg.val.getD 1 0 != 0x71) = true := by
        rw [hplays]
        exact bne_iff_ne.mpr hq
      have hcount : ∀ {e : Mcsevt}, e.plain = false → heardOf e (ts ++ [.ping]) = 0 := by
        intro e he
        rw [heardOf_append, heardOf_plain he (orders_plain hts hq), heardOf_plain he (plain_one rfl)]
      rw [hts]
      exact ⟨_, rfl, ⟨hstays, name, hname⟩, rfl, rfl, (hcount rfl).trans (ite_self 0).symm,
        (hcount rfl).trans (ite_self 0).symm⟩
    · rw [if_neg hslash]
      simp only [hname]
      exact ⟨_, rfl, ⟨hplays, name, hname⟩, rfl, rfl, (ite_self 0).symm, (ite_self 0).symm⟩
  | plyrstat eno epos head => exact state_answer ⟨hplays, name, hname⟩ epos head

end Packets

/-! ### Sequences -/

section Sequences
variable {l : Lvl} {s : Player}

theorem states_le (a : Asked) : a.states = 0 ∨ a.states = 1 := by cases a <;> simp [Asked.states]

/-- The level is sent by the states that find the counter at 1024, and a greeting also by those that find it at 512. -/
theorem stays_answers (as : List Asked) (hs : s.Settled) (has : ∀ a ∈ as, a.Stays) :
    (s.answers l as).2.isSome ∧
    ((s.answers l as).1.map fun x => heardOf .lnew x.heard).sum = (s.ctr + (as.map Asked.states).sum - 1) / 1024 ∧
    ((s.answers l as).1.map fun x => heardOf .pgreeting x.heard).sum = (s.ctr + (as.map Asked.states).sum - 1) / 1024 +
      ((s.ctr + (as.map Asked.states).sum + 511) / 1024 - (s.ctr + 511) / 1024) := by
  have hctr := s.counted hs.1
  induction as generalizing s with
  | nil =>
    have hnil : s.answers l [] = ([], some s) := rfl
    rw [hnil]
    refine ⟨rfl, ?_, ?_⟩ <;> simp only [List.map_nil, List.sum_nil] <;> omega
  | cons a as ih =>
    obtain ⟨x, hx, hsettled, -, hnext, hlevel, hgreeting⟩ := stays_answer (l := l) a hs (has a List.mem_cons_self)
    obtain ⟨hsome, hlevels, hgreetings⟩ := ih hsettled (fun b hb => has b (List.mem_cons_of_mem _ hb))
      (x.next.counted hsettled.1)
    rw [hnext, after] at hlevels hgreetings
    rw [answers_cons hx]
    refine ⟨hsome, ?_, ?_⟩
    · rw [List.map_cons, List.map_cons, List.sum_cons, List.sum_cons, hlevel, hlevels]
      rcases states_le a with hk | hk
      · simp only [hk, if_true, ite_self, zero_add]
      · simp only [hk, one_ne_zero, if_false]
        split_ifs <;> omega
    · rw [List.map_cons, List.map_cons, List.sum_cons, List.sum_cons, hgreeting, hgreetings]
      rcases states_le a with hk | hk
      · simp only [hk, if_true, ite_self, zero_add]
      · simp only [hk, one_ne_zero, if_false]
        split_ifs <;> omega

end Sequences

section Runs
variable (ldefault : Ptr) (ldsize : Int16) (lddim : Mcvec)

/-- Who greets with a name that is not too long, and stays, hears the level once more after each 1024 states, and a greeting
    then and 512 states after. -/
theorem starts_rejoin (a : Asked) (as : List Asked) {v : Int} (hv : a.version = some v) (ha : a.Introduces)
    (has : ∀ b ∈ as, b.Stays) (rest : List UInt8) (hrest : Packetless rest) :
    ∃ h w, Starts ldefault ldsize lddim ((a :: as).flatMap Asked.form.write ++ rest) h (.invalid, w) ∧
      heardOf .lnew ((Heard.form v).all w.stdout).1 = 1 + ((as.map Asked.states).sum - 1) / 1024 ∧
      heardOf .pgreeting ((Heard.form v).all w.stdout).1 =
        1 + ((as.map Asked.states).sum - 1) / 1024 + ((as.map Asked.states).sum + 511) / 1024 := by
  obtain ⟨h, ct, w, hrun, -, hout, hend⟩ := packets_end (a :: as) (csetup_conforms (lload ldefault ldsize lddim) _)
    (Int16.toInt_le ldsize) rfl hrest
  obtain ⟨x, hx, hpv, hplays, hname, hctr, hjoins⟩ := introduces_answer (s := .nobody) (l := lload ldefault ldsize lddim) hv ha
  obtain ⟨hsome, hlevels, hgreetings⟩ := stays_answers (l := lload ldefault ldsize lddim) as ⟨hplays, hname⟩ has
  have hall : ∀ x ∈ (Player.nobody.answers (lload ldefault ldsize lddim) (a :: as)).1, x.next.pv = v := by
    refine answers_pv (Or.inr ⟨a, rfl, hv⟩) fun b hb => ?_
    rcases List.mem_cons.mp hb with rfl | hb
    · exact Or.inr hv
    · refine Or.inl ?_
      cases b <;> first | rfl | exact (has _ hb).elim
  have hheard : (Heard.form v).all w.stdout =
      ((Player.nobody.answers (lload ldefault ldsize lddim) (a :: as)).1.flatMap (Answer.hears v), []) := by
    rw [hout]
    exact hears_all hall
  obtain ⟨hlevel, hgreeting⟩ := heardOf_joins (v := v) (lload ldefault ldsize lddim)
  rw [answers_cons hx] at hall hend hheard
  rw [if_pos hsome] at hend
  subst hend
  have hcount : ∀ e, heardOf e ((Heard.form v).all w.stdout).1 = heardOf e (Heard.joins v (lload ldefault ldsize lddim)) +
      ((x.next.answers (lload ldefault ldsize lddim) as).1.map fun x => heardOf e x.heard).sum := by
    intro e
    rw [hheard, List.flatMap_cons, heardOf_append, hjoins, heardOf_answers fun y hy => hall y (List.mem_cons_of_mem _ hy)]
  rw [hctr] at hlevels hgreetings
  refine ⟨h, w, hrun, ?_, ?_⟩
  · rw [hcount, hlevel, hlevels, Nat.zero_add]
  · rw [hcount, hgreeting, hgreetings, Nat.zero_add]
    omega

/-- After 1025 states the level is sent for the second time, and with it the third greeting. -/
theorem starts_rejoin_state : ∃ h w,
    Starts (fun _ => 0) 0 {} ((.greeting0 letterName (by decide) :: List.replicate 1025 (.plyrstat 0 {} {})).flatMap Asked.form.write ++
      []) h (.invalid, w) ∧ heardOf .lnew ((Heard.form 0).all w.stdout).1 = 2 ∧
      heardOf .pgreeting ((Heard.form 0).all w.stdout).1 = 3 := by
  obtain ⟨h, w, hrun, hlevels, hgreetings⟩ := starts_rejoin (fun _ => 0) 0 {} (.greeting0 letterName (by decide))
    (List.replicate 1025 (.plyrstat 0 {} {})) rfl (by decide +kernel : trimmed letterName.val ≤ 20)
    (fun b hb => List.eq_of_mem_replicate hb ▸ trivial) [] (fun b hb => by cases hb)
  have hstates : ((List.replicate 1025 (Asked.plyrstat 0 {} {})).map Asked.states).sum = 1025 := by
    rw [List.map_replicate, List.sum_replicate_nat]
    rfl
  rw [hstates] at hlevels hgreetings
  exact ⟨h, w, hrun, hlevels, hgreetings⟩

end Runs

end ClassicX
