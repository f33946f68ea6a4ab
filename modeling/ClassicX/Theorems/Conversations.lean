import ClassicX.Theorems.Conforms

/-! Whole runs of the program on what a client sends, and what the client hears. -/

namespace ClassicX
open Formats Formats.Format
open Runs (Run)

/-! ### The end of a run -/

/-- No packet starts here: there is nothing more, or a byte that is the number of none. -/
def Packetless (rest : List UInt8) : Prop := ∀ b ∈ rest.head?, cedecode b.toNat = .nothing

section Ends
variable {l : Lvl} {s : Player} {w : World}

/-- A run of the server ends where no packet starts, and nothing more is given away. -/
theorem packetless_ends (hs : Conforms l s w) (hrest : Packetless w.stdin.rest) :
    ∃ w', cloop w .evtno = some (.invalid, w') ∧ w'.stdout = w.stdout := by
  have hlen := mcctlen_evtno hs.boundary.pv
  cases hstdin : w.stdin.rest with
  | nil =>
    have hno : ¬MCSTRLEN - 1 = (1 : Int) := by decide
    have hneg : 0 > (input w.stdin 1).1 := by
      rw [input_end hstdin (Or.inr (by decide))]
      decide
    refine ⟨(cloop.read w .evtno).2, ?_, ?_⟩
    · simp only [cloop, cloop.read, hlen, if_neg hno, if_pos hneg]
    · exact congrArg List.flatten read_outputs
  | cons b rest =>
    have hcloop := cloop_fed .evtno rfl hlen (by simp) (by simp) (show w.stdin.rest = [b] ++ rest from hstdin)
    have hsrc : w.inbuf.store 0 [b] 0 = b := holds_store w.inbuf [b] 0 (by simp)
    have hb : cedecode (w.inbuf.store 0 [b] 0).toNat = .nothing := by
      rw [hsrc]
      exact hrest b (by rw [hstdin]; rfl)
    have hmcsread : mcsread w.z.session (w.inbuf.store 0 [b]) 1 true =
        some (.invalid, { w.z.session with r := ⟨w.z.session.r.rem, .nothing, .invalid⟩ }, some (.evt .nothing)) := by
      refine mcsread_eq 1 (by rw [hs.boundary.type]; rfl) ?_ rfl
      simp [rctEventNumber, mcctlen_eq hs.boundary.pv.2, ctlen, hb]
    obtain ⟨w', hread, hfetched, -⟩ := fed_fetched rest hmcsread
    refine ⟨w', ?_, hfetched.stdout⟩
    rw [hcloop]
    simp only [ctevtno, List.length_singleton, Nat.cast_one, hread, Option.bind_eq_bind, Option.bind_some]

theorem loop_det (t t' : Iter) (hpre : start.loop.pre t = start.loop.pre t') (hok : start.loop.Ok t) (hok' : start.loop.Ok t') :
    start.loop.post t = start.loop.post t' := by
  obtain ⟨hct, hw⟩ := Prod.mk.inj hpre
  exact Option.some.inj (hok.2.symm.trans (hct ▸ hw ▸ hok'.2))

/-- A sequence of packets with no packet behind it is answered up to the first that has no answer, and there the run ends, or
    comes to a step that is not defined. -/
theorem packets_end (as : List Asked) {rest : List UInt8} (hs : Conforms l s w) (hlevel : l.filelen ≤ 32767)
    (hstdin : w.stdin.rest = as.flatMap Asked.form.write ++ rest) (hrest : Packetless rest) :
    ∃ h ct w', Run start.loop (.evtno, w) h (ct, w') ∧ (∀ h' s', Run start.loop (.evtno, w) h' s' → h'.length ≤ h.length) ∧
      w'.stdout = w.stdout ++ (s.answers l as).1.flatMap Answer.bytes ∧
      if (s.answers l as).2.isSome then ct = .invalid else ct ≠ .invalid ∧ cloop w' ct = none := by
  obtain ⟨n, ct, w', ⟨h, hrun, rfl⟩, hout, hend⟩ := packets_does as hs hlevel hstdin
  cases hs' : (s.answers l as).2 with
  | none =>
    rw [hs'] at hend
    obtain ⟨hct, hnone⟩ := hend
    refine ⟨h, ct, w', hrun, fun h' s' hrun' => hrun.longest loop_det (fun t hpre hok => ?_) hrun', hout, hct, hnone⟩
    obtain ⟨rfl, rfl⟩ := Prod.mk.inj hpre
    rw [hok.2] at hnone
    cases hnone
  | some s' =>
    rw [hs'] at hend
    obtain ⟨rfl, -, hconforms, hleft⟩ := hend
    obtain ⟨w'', hlast, hout'⟩ := packetless_ends hconforms (by rw [hleft]; exact hrest)
    have hok : start.loop.Ok ⟨.evtno, w', .invalid, w''⟩ := ⟨(by decide : Mcctyp.evtno ≠ .invalid), hlast⟩
    have hruns := Run.next (S := start.loop) _ hrun hok
    refine ⟨_, .invalid, w'', hruns, fun h' s' hrun' => hruns.longest loop_det (fun t hpre hok => ?_) hrun', hout'.trans hout, rfl⟩
    exact hok.1 (Prod.mk.inj hpre).1

end Ends

section Starts
variable (ldefault : Ptr) (ldsize : Int16) (lddim : Mcvec)

/-- On any input, the program answers the packets that it starts with as the server does, in as many iterations as they have
    fields, and no packet starts behind them, unless one of them has no answer, where the run comes to a step that is not
    defined. -/
theorem starts_parses (stdin : List UInt8) : ∃ h ct w, Starts ldefault ldsize lddim stdin h (ct, w) ∧
    w.stdout = (Player.nobody.answers (lload ldefault ldsize lddim) (Asked.form.all stdin).1).1.flatMap Answer.bytes ∧
    match (Player.nobody.answers (lload ldefault ldsize lddim) (Asked.form.all stdin).1).2 with
    | some s => ct = .evtno ∧ h.length = ((Asked.form.all stdin).1.map fun a => a.packet.parts.length).sum ∧
        Conforms (lload ldefault ldsize lddim) s w ∧ w.stdin = ⟨(Asked.form.all stdin).2, false⟩ ∧ Asked.form.read w.stdin.rest = none
    | none => ct ≠ .invalid ∧ cloop w ct = none := by
  obtain ⟨n, ct, w, ⟨h, hrun, rfl⟩, hout, hend⟩ := packets_does (Asked.form.all stdin).1
    (csetup_conforms (lload ldefault ldsize lddim) stdin) (Int16.toInt_le ldsize) (Asked.form.all_write stdin)
  refine ⟨h, ct, w, hrun, hout, ?_⟩
  cases hs' : (Player.nobody.answers (lload ldefault ldsize lddim) (Asked.form.all stdin).1).2 with
  | none =>
    rw [hs'] at hend
    exact hend
  | some s' =>
    rw [hs'] at hend
    obtain ⟨hct, hlen, hconforms, hleft⟩ := hend
    refine ⟨hct, hlen, hconforms, hleft, ?_⟩
    rw [hleft]
    exact Asked.proper.all_stuck stdin

/-- What the program does with a sequence of packets is what the server answers: the whole run gives away the bytes of the
    answers, and it ends behind the last packet, unless a packet has no answer, where it comes to a step that is not
    defined. -/
theorem starts_answers (as : List Asked) (rest : List UInt8) (hrest : Packetless rest) :
    ∃ h ct w, Starts ldefault ldsize lddim (as.flatMap Asked.form.write ++ rest) h (ct, w) ∧
      (∀ h' s', Starts ldefault ldsize lddim (as.flatMap Asked.form.write ++ rest) h' s' → h'.length ≤ h.length) ∧
      w.stdout = (Player.nobody.answers (lload ldefault ldsize lddim) as).1.flatMap Answer.bytes ∧
      if (Player.nobody.answers (lload ldefault ldsize lddim) as).2.isSome then ct = .invalid
      else ct ≠ .invalid ∧ cloop w ct = none :=
  packets_end as (csetup_conforms _ _) (Int16.toInt_le ldsize) rfl hrest

/-- A name of one letter. -/
def letterName : Str := ⟨0x41 :: List.replicate 63 0x20, rfl⟩

/-- A name that is too long. -/
def longName : Str := ⟨List.replicate 64 0x41, rfl⟩

/-- A greeting, an edit, and a byte that is the number of no packet. -/
theorem starts_answers_edit : ∃ h ct w,
    Starts (fun _ => 0) 0 {} ([.greeting0 letterName (by decide), .blkedit ⟨{}, 1, 7⟩].flatMap Asked.form.write ++ [0xFF]) h
      (ct, w) ∧ w.stdout.length = 231 ∧ ct = .invalid := by
  obtain ⟨h, ct, w, hrun, -, hout, hend⟩ := starts_answers (fun _ => 0) 0 {}
    [.greeting0 letterName (by decide), .blkedit ⟨{}, 1, 7⟩] [0xFF] (by rintro b ⟨⟩; rfl)
  refine ⟨h, ct, w, hrun, ?_, hend⟩
  rw [hout]
  decide +kernel

end Starts

/-! ### What is heard -/

/-- What a client of version `v` hears of an answer: nothing, if it is one to another version. -/
def Answer.hears (v : Int) (x : Answer) : List (Heard v) := if h : x.next.pv = v then h ▸ x.heard else []

/-- The version that a packet tells. -/
def Asked.version : Asked → Option Int
  | .greeting0 _ _ => some 0
  | .greeting v _ _ _ _ => some v
  | _ => none

section Hearing
variable {l : Lvl} {s : Player} {v : Int}

theorem hears_bytes {x : Answer} (h : x.next.pv = v) : x.bytes = (x.hears v).flatMap (Heard.form v).write := by
  subst h
  rw [Answer.hears, dif_pos rfl]
  rfl

theorem state_pv {epos : Mcvec} {head : Mchead} {x : Answer} (h : s.state l epos head = some x) : x.next.pv = s.pv := by
  rw [Player.state] at h
  split at h
  · cases h
    rfl
  · split at h
    · obtain ⟨again, -, rfl⟩ := Option.map_eq_some_iff.mp h
      rfl
    · cases h
      rfl

theorem message_pv {msg : Str} {x : Answer} (h : s.message msg = some x) : x.next.pv = s.pv := by
  rw [Player.message] at h
  split at h
  · cases h
  · split at h
    · obtain ⟨ts, -, rfl⟩ := Option.map_eq_some_iff.mp h
      rfl
    · split at h <;> cases h
      rfl

theorem greeted_pv (version : Known v) (name : Str) : (s.greeted l v version name).next.pv = v := by
  rw [Player.greeted]
  split
  · rfl
  · simp only
    split <;> rfl

/-- A greeting sets the version, and no other packet does. -/
theorem answer_pv {a : Asked} {x : Answer} (h : s.answer l a = some x) : x.next.pv = a.version.getD s.pv := by
  cases a with
  | greeting0 name printable =>
    cases h
    exact greeted_pv known_zero name
  | greeting v known name pass flags =>
    cases h
    exact greeted_pv (known_of known) name
  | blkedit upd =>
    rw [Player.answer] at h
    split at h <;> cases h
    rfl
  | plyrstat eno epos head => exact state_pv h
  | chatmsg eno msg => exact message_pv h

/-- While every greeting tells the version `v`, every answer is one to it. -/
theorem answers_pv {as : List Asked} (h0 : s.pv = v ∨ ∃ a ∈ as.head?, a.version = some v)
    (hv : ∀ a ∈ as, a.version = none ∨ a.version = some v) : ∀ x ∈ (s.answers l as).1, x.next.pv = v := by
  induction as generalizing s with
  | nil => exact fun x hx => absurd hx List.not_mem_nil
  | cons a as ih =>
    cases hx : s.answer l a with
    | none =>
      rw [answers_none hx]
      exact fun x hx => absurd hx List.not_mem_nil
    | some x =>
      rw [answers_cons hx]
      have hpv : x.next.pv = v := by
        rw [answer_pv hx]
        rcases hv a List.mem_cons_self with hno | hyes
        · rw [hno, Option.getD_none]
          refine h0.resolve_right ?_
          rintro ⟨b, hb, hbv⟩
          obtain rfl : a = b := Option.some.inj hb
          rw [hno] at hbv
          cases hbv
        · rw [hyes, Option.getD_some]
      intro y hy
      rcases List.mem_cons.mp hy with rfl | hy
      · exact hpv
      · exact ih (Or.inl hpv) (fun b hb => hv b (List.mem_cons_of_mem _ hb)) y hy

theorem hears_all {xs : List Answer} (h : ∀ x ∈ xs, x.next.pv = v) :
    (Heard.form v).all (xs.flatMap Answer.bytes) = (xs.flatMap (Answer.hears v), []) := by
  have hbytes : xs.flatMap Answer.bytes = (xs.flatMap (Answer.hears v)).flatMap (Heard.form v).write := by
    rw [List.flatMap_assoc]
    exact List.flatMap_congr fun x hx => hears_bytes (h x hx)
  rw [hbytes, (Heard.proper v).all_flatMap]

/-! ### Kinds -/

/-- What is neither a greeting nor a part of a level nor a goodbye. -/
def Mcsevt.plain : Mcsevt → Bool
  | .pgreeting => false
  | .lnew => false
  | .ldata => false
  | .ldim => false
  | .pbye => false
  | _ => true

theorem plain_one {t : Heard v} (ht : t.1.plain) : ∀ u ∈ [t], u.1.plain := by simpa using ht

theorem moves_plain (epos : Mcvec) (head : Mchead) : ∀ t ∈ s.moves epos head, t.1.plain := by
  have hnone : ∀ t ∈ ([] : List (Heard s.pv)), t.1.plain := fun t ht => absurd ht List.not_mem_nil
  rw [Player.moves]
  split
  · exact hnone
  · split
    · exact plain_one rfl
    · split
      · exact hnone
      all_goals exact plain_one rfl

theorem orders_plain {msg : Str} {c : UInt8} {ts : List (Heard s.pv)} (h : s.orders msg c = some ts) (hc : c ≠ 0x71) :
    ∀ t ∈ ts, t.1.plain := by
  have hq : Char.ofNat c.toNat ≠ 'q' := fun heq => hc (ofNat_eq_iff.mp heq)
  rw [Player.orders] at h
  split at h
  case h_1 =>
    simp only at h
    split at h <;> cases h <;> exact plain_one rfl
  case h_2 heq => exact absurd heq hq
  case h_3 =>
    cases h
    intro t ht
    rcases List.mem_cons.mp ht with rfl | ht
    · rfl
    · exact plain_one rfl t ht
  case h_4 =>
    split at h <;> cases h
    exact plain_one rfl
  case h_11 =>
    cases h
    intro t ht
    obtain ⟨line, -, rfl⟩ := List.mem_map.mp ht
    rfl
  all_goals
    cases h
    exact plain_one rfl

theorem again_plain {ts : List (Heard s.pv)} (h : s.again = some ts) : ∀ t ∈ ts, t.1.plain ∨ t.1 = .pgreeting := by
  have hagain : ∀ name : List UInt8, ∀ t ∈ ([.died 0, .greeting s.pv, .spawn (-1) name { s.epos with y := s.epos.y - 20 } s.head,
      .spawn 0 name s.epos s.head, .ping] : List (Heard s.pv)), t.1.plain ∨ t.1 = .pgreeting := by
    intro name t ht
    simp only [List.mem_cons, List.not_mem_nil, or_false] at ht
    rcases ht with rfl | rfl | rfl | rfl | rfl
    · exact Or.inl rfl
    · exact Or.inr rfl
    all_goals exact Or.inl rfl
  rw [Player.again] at h
  split at h
  · rw [Player.respawns] at h
    cases hname : s.name with
    | unknown =>
      rw [hname] at h
      cases h
      exact hagain []
    | refused =>
      rw [hname] at h
      cases h
    | known name =>
      rw [hname] at h
      cases h
      exact hagain name.val
  · cases h
    exact fun t ht => absurd ht List.not_mem_nil

/-! ### Names -/

/-- A greeting with a name that is not too long. -/
def Asked.Introduces : Asked → Prop
  | .greeting0 name _ => trimmed name.val ≤ 20
  | .greeting _ _ name _ _ => trimmed name.val ≤ 20
  | _ => False

theorem greeted_joins (version : Known v) {name : Str} (h : trimmed name.val ≤ 20) : s.greeted l v version name =
    ⟨(s.introduces v version (.of name) (of_unlike name).1).joins (of_unlike name).1, Heard.joins v l⟩ := if_pos h

/-- Who greets with a name that is not too long takes part, and is sent the level. -/
theorem introduces_answer {a : Asked} (hv : a.version = some v) (ha : a.Introduces) : ∃ x, s.answer l a = some x ∧
    x.next.pv = v ∧ x.next.plays = true ∧ (∃ name, x.next.name = .known name) ∧ x.next.ctr = 0 ∧ x.hears v = Heard.joins v l := by
  have hjoins : ∀ {v : Int} (version : Known v) (name : Str), trimmed name.val ≤ 20 → ∃ x, some (s.greeted l v version name) = some x ∧
      x.next.pv = v ∧ x.next.plays = true ∧ (∃ name, x.next.name = .known name) ∧ x.next.ctr = 0 ∧ x.hears v = Heard.joins v l := by
    intro v version name h
    rw [greeted_joins version h]
    exact ⟨_, rfl, rfl, rfl, ⟨_, rfl⟩, rfl, dif_pos rfl⟩
  cases a with
  | greeting0 name printable =>
    cases hv
    exact hjoins known_zero name ha
  | greeting v known name pass flags =>
    cases hv
    exact hjoins (known_of known) name ha
  | _ => exact ha.elim

end Hearing

section Clients
variable (ldefault : Ptr) (ldsize : Int16) (lddim : Mcvec)

/-- A client that greets with the version `v` first, and with no other version later, reads everything that the program gives
    away at this version: the answers to its packets in order, and nothing else. -/
theorem starts_heard (a : Asked) (as : List Asked) {v : Int} (ha : a.version = some v)
    (has : ∀ b ∈ as, b.version = none ∨ b.version = some v) (rest : List UInt8) (hrest : Packetless rest) :
    ∃ h ct w, Starts ldefault ldsize lddim ((a :: as).flatMap Asked.form.write ++ rest) h (ct, w) ∧
      (∀ h' s', Starts ldefault ldsize lddim ((a :: as).flatMap Asked.form.write ++ rest) h' s' → h'.length ≤ h.length) ∧
      (Heard.form v).all w.stdout =
        ((Player.nobody.answers (lload ldefault ldsize lddim) (a :: as)).1.flatMap (Answer.hears v), []) := by
  obtain ⟨h, ct, w, hrun, hlongest, hout, -⟩ := packets_end (a :: as) (csetup_conforms (lload ldefault ldsize lddim) _)
    (Int16.toInt_le ldsize) rfl hrest
  refine ⟨h, ct, w, hrun, hlongest, ?_⟩
  have hfresh : (csetup (lload ldefault ldsize lddim) ((a :: as).flatMap Asked.form.write ++ rest)).stdout = [] := rfl
  rw [hout, hfresh, List.nil_append, hears_all (answers_pv (Or.inr ⟨a, rfl, ha⟩) fun b hb => ?_)]
  rcases List.mem_cons.mp hb with rfl | hb
  · exact Or.inr ha
  · exact has b hb

/-- A greeting of version 0 and an edit. -/
theorem starts_heard_edit : ∃ h ct w,
    Starts (fun _ => 0) 0 {} ([.greeting0 letterName (by decide), .blkedit ⟨{}, 1, 7⟩].flatMap Asked.form.write ++ []) h
      (ct, w) ∧ ((Heard.form 0).all w.stdout).1.map Sigma.fst =
        [.pgreeting, .lnew, .ldim, .enew, .enew, .ping, .bupdate, .ping] := by
  obtain ⟨h, ct, w, hrun, -, hheard⟩ := starts_heard (fun _ => 0) 0 {} (.greeting0 letterName (by decide))
    [.blkedit ⟨{}, 1, 7⟩] rfl (by simp [Asked.version]) [] nofun
  refine ⟨h, ct, w, hrun, ?_⟩
  rw [hheard]
  decide +kernel

/-- Behind the packets of such a client, unless a step is not defined. -/
theorem client_hears (a : Asked) (as : List Asked) {v : Int} (ha : a.version = some v)
    (has : ∀ b ∈ as, b.version = none ∨ b.version = some v) (rest : List UInt8) :
    ∃ h ct w, Starts ldefault ldsize lddim ((a :: as).flatMap Asked.form.write ++ rest) h (ct, w) ∧
      ((∃ p, (Player.nobody.answers (lload ldefault ldsize lddim) (a :: as)).2 = some p ∧ ct = .evtno ∧ w.stdin.rest = rest ∧
          Conforms (lload ldefault ldsize lddim) p w ∧
          (∀ x ∈ (Player.nobody.answers (lload ldefault ldsize lddim) (a :: as)).1, x.next.pv = v) ∧
          (Heard.form v).all w.stdout =
            ((Player.nobody.answers (lload ldefault ldsize lddim) (a :: as)).1.flatMap (Answer.hears v), [])) ∨
        ct ≠ .invalid ∧ cloop w ct = none) := by
  obtain ⟨n, ct, w, ⟨h, hrun, -⟩, hout, hend⟩ := packets_does (a :: as) (csetup_conforms (lload ldefault ldsize lddim)
    ((a :: as).flatMap Asked.form.write ++ rest)) (Int16.toInt_le ldsize) rfl
  refine ⟨h, ct, w, hrun, ?_⟩
  cases hp : (Player.nobody.answers (lload ldefault ldsize lddim) (a :: as)).2 with
  | none =>
    rw [hp] at hend
    exact Or.inr hend
  | some p =>
    rw [hp] at hend
    obtain ⟨hct, -, hconforms, hstdin⟩ := hend
    have hpv := answers_pv (l := lload ldefault ldsize lddim) (s := .nobody) (Or.inr ⟨a, rfl, ha⟩) fun b hb =>
      (List.mem_cons.mp hb).elim (fun h => h ▸ Or.inr ha) (has b)
    refine Or.inl ⟨p, rfl, hct, by rw [hstdin], hconforms, hpv, ?_⟩
    rw [hout]
    exact hears_all hpv

end Clients

end ClassicX
