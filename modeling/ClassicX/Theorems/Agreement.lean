import ClassicX.Theorems.Conversations

/-! What a client can tell of the server from what it hears, and which packets the server does not remember. -/

namespace ClassicX
open Formats Formats.Format
open Runs (Run)

/-! ### Taking part -/

/-- Whether a client takes part after it has heard events of the kinds `ks`: from a level on, and until a goodbye. -/
def partakes (plays : Bool) (ks : List Mcsevt) : Bool :=
  ks.foldl (fun plays k => if k = .lnew then true else if k = .pbye then false else plays) plays

/-- The kinds of what is heard. -/
def kinds {v : Int} (ts : List (Heard v)) : List Mcsevt := ts.map Sigma.fst

/-- What neither starts a level nor is a goodbye. -/
def Mcsevt.neutral : Mcsevt → Bool
  | .lnew => false
  | .pbye => false
  | _ => true

section Partakes
variable {v : Int} {plays : Bool} {ts us : List (Heard v)}

theorem partakes_append : partakes plays (kinds (ts ++ us)) = partakes (partakes plays (kinds ts)) (kinds us) := by
  rw [kinds, List.map_append]
  exact List.foldl_append

theorem partakes_neutral (h : ∀ t ∈ ts, t.1.neutral) : partakes plays (kinds ts) = plays := by
  induction ts with
  | nil => rfl
  | cons t ts ih =>
    have ht := h t List.mem_cons_self
    have hkind : t.1 ≠ .lnew ∧ t.1 ≠ .pbye := by
      constructor <;> intro heq <;> rw [heq] at ht <;> cases ht
    rw [kinds, List.map_cons, partakes, List.foldl_cons, if_neg hkind.1, if_neg hkind.2]
    exact ih fun u hu => h u (List.mem_cons_of_mem _ hu)

theorem greets_neutral (h : ∀ t ∈ ts, t.1.plain ∨ t.1 = .pgreeting) : ∀ t ∈ ts, t.1.neutral := by
  intro t ht
  have hkind := h t ht
  generalize t.1 = e at hkind ⊢
  cases e <;> first | rfl | (rcases hkind with hkind | hkind <;> cases hkind)

theorem plain_neutral (h : ∀ t ∈ ts, t.1.plain) : ∀ t ∈ ts, t.1.neutral := greets_neutral fun t ht => Or.inl (h t ht)

theorem neutral_one {t : Heard v} (ht : t.1.neutral) : ∀ u ∈ [t], u.1.neutral := by simpa using ht

theorem neutral_append (h : ∀ t ∈ ts, t.1.neutral) (h' : ∀ t ∈ us, t.1.neutral) : ∀ t ∈ ts ++ us, t.1.neutral := by
  intro t ht
  rcases List.mem_append.mp ht with ht | ht
  · exact h t ht
  · exact h' t ht

theorem partakes_joins (l : Lvl) : partakes plays (kinds (Heard.joins v l)) = true := by
  have hfirst : partakes plays (kinds ([.greeting v, ⟨.lnew, ()⟩] : List (Heard v))) = true := rfl
  rw [Heard.joins, partakes_append, partakes_append, hfirst, partakes_neutral, partakes_neutral]
  · intro t ht
    obtain ⟨j, -, rfl⟩ := List.mem_map.mp ht
    rfl
  · intro t ht
    simp only [List.mem_cons, List.not_mem_nil, or_false] at ht
    rcases ht with rfl | rfl | rfl | rfl <;> rfl

end Partakes

section Packets
variable {l : Lvl} {s : Player}

theorem orders_quit (msg : Str) : s.orders msg 0x71 = some [.bye (text "You quit.")] := rfl

theorem greeted_partakes {v : Int} (version : Known v) (name : Str) {x : Answer} (h : s.greeted l v version name = x) :
    x.next.plays = partakes s.plays (kinds x.heard) := by
  rw [Player.greeted] at h
  split at h
  · subst h
    exact (partakes_joins l).symm
  · simp only at h
    split at h
    · subst h
      exact Bool.and_false s.plays
    · subst h
      have hjoins : partakes false (kinds (Heard.joins v l)) = true := partakes_joins l
      exact hjoins.symm

theorem state_partakes {epos : Mcvec} {head : Mchead} {x : Answer} (h : s.state l epos head = some x) :
    x.next.plays = partakes s.plays (kinds x.heard) := by
  have hping : ∀ t ∈ ([.ping] : List (Heard s.pv)), t.1.neutral := neutral_one rfl
  have hmoves := neutral_append (plain_neutral (moves_plain epos head)) hping
  rw [Player.state] at h
  split at h
  case isTrue hwaits =>
    cases h
    rfl
  case isFalse hplays =>
    have hplays : s.plays = true := Bool.eq_true_of_not_eq_false hplays
    split at h
    case isTrue hlow =>
      obtain ⟨ts, hts, rfl⟩ := Option.map_eq_some_iff.mp h
      have hagain : ∀ t ∈ (ts : List (Heard s.pv)), t.1.neutral := greets_neutral (again_plain (s := s.moved epos head) hts)
      exact (partakes_neutral (neutral_append hmoves hagain)).symm
    case isFalse hhigh =>
      cases h
      have hjoins : partakes s.plays (kinds (s.moves epos head ++ [.ping] ++ Heard.joins s.pv l : List (Heard s.pv))) = true := by
        rw [partakes_append, partakes_joins]
      exact hplays.trans hjoins.symm

theorem quits_other {c : UInt8} (hc : c ≠ 0x71) : s.quits c = s := by
  cases s
  simp [Player.quits, hc]

theorem message_partakes {msg : Str} {x : Answer} (h : s.message msg = some x) :
    x.next.plays = partakes s.plays (kinds x.heard) := by
  have hping : ∀ t ∈ ([.ping] : List (Heard s.pv)), t.1.neutral := neutral_one rfl
  rw [Player.message] at h
  split at h
  case isTrue => cases h
  case isFalse =>
    split at h
    case isTrue =>
      obtain ⟨ts, hts, rfl⟩ := Option.map_eq_some_iff.mp h
      by_cases hc : msg.val.getD 1 0 = 0x71
      · rw [hc] at hts ⊢
        cases (orders_quit msg).symm.trans hts
        exact Bool.and_false s.plays
      · have hneutral := neutral_append (plain_neutral (orders_plain hts hc)) hping
        exact (congrArg Player.plays (quits_other hc)).trans (partakes_neutral hneutral).symm
    case isFalse =>
      split at h <;> cases h
      rfl

/-- After every packet, a client that was told everything before can tell whether it takes part. -/
theorem answer_partakes {a : Asked} {x : Answer} (h : s.answer l a = some x) : x.next.plays = partakes s.plays (kinds x.heard) := by
  cases a with
  | greeting0 name printable => exact greeted_partakes known_zero name (Option.some.inj h)
  | greeting v known name pass flags => exact greeted_partakes (known_of known) name (Option.some.inj h)
  | blkedit upd =>
    rw [Player.answer] at h
    split at h <;> cases h
    rfl
  | plyrstat eno epos head => exact state_partakes h
  | chatmsg eno msg => exact message_partakes h

theorem answers_partakes {as : List Asked} {s' : Player} (h : (s.answers l as).2 = some s') :
    s'.plays = partakes s.plays ((s.answers l as).1.flatMap fun x => kinds x.heard) := by
  induction as generalizing s with
  | nil =>
    obtain rfl : s = s' := Option.some.inj h
    rfl
  | cons a as ih =>
    cases hx : s.answer l a with
    | none =>
      rw [answers_none hx] at h
      cases h
    | some x =>
      rw [answers_cons hx] at h
      rw [answers_cons hx, ih h, answer_partakes hx, List.flatMap_cons]
      exact List.foldl_append.symm

end Packets

section Runs
variable (ldefault : Ptr) (ldsize : Int16) (lddim : Mcvec)

theorem kinds_hears {v : Int} {x : Answer} (h : x.next.pv = v) : kinds (x.hears v) = kinds x.heard := by
  subst h
  rw [Answer.hears, dif_pos rfl]

/-- A client that greets with the version `v` first, and with no other version later, can tell from what it hears whether the
    server takes it for a player: after every packet, unless a step is not defined. -/
theorem starts_agree (a : Asked) (as : List Asked) {v : Int} (ha : a.version = some v)
    (has : ∀ b ∈ as, b.version = none ∨ b.version = some v) (rest : List UInt8) :
    ∃ h ct w, Starts ldefault ldsize lddim ((a :: as).flatMap Asked.form.write ++ rest) h (ct, w) ∧
      (ct = .evtno ∧ w.stdin.rest = rest ∧ ((Heard.form v).all w.stdout).2 = [] ∧
          (w.z.flg ≠ 0 ↔ partakes false (kinds ((Heard.form v).all w.stdout).1) = true) ∨
        ct ≠ .invalid ∧ cloop w ct = none) := by
  obtain ⟨h, ct, w, hrun, ⟨p, hp, hct, hrest, hconforms, hpv, hheard⟩ | hend⟩ := client_hears ldefault ldsize lddim a as ha has
    rest
  · have hkinds : kinds ((Player.nobody.answers (lload ldefault ldsize lddim) (a :: as)).1.flatMap (Answer.hears v)) =
        (Player.nobody.answers (lload ldefault ldsize lddim) (a :: as)).1.flatMap fun x => kinds x.heard := by
      rw [kinds, List.map_flatMap]
      exact List.flatMap_congr fun x hx => kinds_hears (hpv x hx)
    refine ⟨h, ct, w, hrun, Or.inl ⟨hct, hrest, by rw [hheard], ?_⟩⟩
    rw [hheard, hkinds, hconforms.plays, answers_partakes hp]
    rfl
  · exact ⟨h, ct, w, hrun, Or.inr hend⟩

/-- A name that is too long is refused, a second greeting is not, and a state follows. -/
theorem starts_agree_long : ∃ h w,
    Starts (fun _ => 0) 0 {} ([.greeting0 longName (by decide), .greeting0 letterName (by decide), .plyrstat 0 {} {}].flatMap
      Asked.form.write ++ []) h (.evtno, w) ∧ w.stdin.rest = [] ∧ ((Heard.form 0).all w.stdout).2 = [] ∧
      (w.z.flg ≠ 0 ↔ partakes false (kinds ((Heard.form 0).all w.stdout).1) = true) := by
  obtain ⟨h, ct, w, hrun, hend⟩ := starts_agree (fun _ => 0) 0 {} (.greeting0 longName (by decide))
    [.greeting0 letterName (by decide), .plyrstat 0 {} {}] rfl (by simp [Asked.version]) []
  rcases hend with ⟨rfl, hrest, hall, hplays⟩ | ⟨hct, hnone⟩
  · exact ⟨h, w, hrun, hrest, hall, hplays⟩
  · -- All three packets have an answer: the run that stops first is the one that ends.
    obtain ⟨h', ct', w', hrun', hlongest, -, hend'⟩ := packets_end
      [.greeting0 longName (by decide), .greeting0 letterName (by decide), .plyrstat 0 {} {}]
      (csetup_conforms (lload (fun _ => 0) 0 {}) _) (by decide) rfl (show Packetless [] from fun b hb => by cases hb)
    have hlonger := hrun.longest loop_det (fun t hpre hok => by
      obtain ⟨rfl, rfl⟩ := Prod.mk.inj hpre
      rw [hok.2] at hnone
      cases hnone) hrun'
    have hsame := hrun.det loop_det hrun' (Nat.le_antisymm (hlongest _ _ hrun) hlonger)
    rw [if_pos (by decide +kernel)] at hend'
    exact absurd ((Prod.mk.inj hsame).1.trans hend') hct

end Runs

/-! ### What is not remembered -/

/-- All but edits, and messages other than the command to quit. -/
def Asked.remembered : Asked → Bool
  | .blkedit _ => false
  | .chatmsg _ msg => msg.val.getD 0 0 == 0x2F && msg.val.getD 1 0 == 0x71
  | _ => true

section Packets
variable {l : Lvl} {s : Player}

theorem answer_forgotten {a : Asked} {x : Answer} (h : s.answer l a = some x) (ha : a.remembered = false) : x.next = s := by
  cases a with
  | blkedit upd =>
    rw [Player.answer] at h
    split at h <;> cases h
    rfl
  | chatmsg eno msg =>
    have h : s.message msg = some x := h
    rw [Player.message] at h
    split at h
    case isTrue => cases h
    case isFalse =>
      split at h
      case isTrue hslash =>
        obtain ⟨ts, -, rfl⟩ := Option.map_eq_some_iff.mp h
        refine quits_other fun hq => ?_
        rw [Asked.remembered, hslash, hq] at ha
        cases ha
      case isFalse =>
        split at h <;> cases h
        rfl
  | _ => cases ha

/-- Where every packet is answered, the others are answered the same without those that are not remembered. -/
theorem answers_forgotten {as : List Asked} {s' : Player} (h : (s.answers l as).2 = some s') :
    (s.answers l as).1.length = as.length ∧ s.answers l (as.filter Asked.remembered) =
      (((as.zip (s.answers l as).1).filter fun p => p.1.remembered).map Prod.snd, some s') := by
  induction as generalizing s with
  | nil => exact ⟨rfl, Prod.ext rfl h⟩
  | cons a as ih =>
    cases hx : s.answer l a with
    | none =>
      rw [answers_none hx] at h
      cases h
    | some x =>
      rw [answers_cons hx] at h ⊢
      obtain ⟨hlen, hanswers⟩ := ih h
      refine ⟨by rw [List.length_cons, hlen, List.length_cons], ?_⟩
      rw [List.zip_cons_cons]
      cases ha : a.remembered with
      | false =>
        have hno : ¬a.remembered = true := Bool.eq_false_iff.mp ha
        rw [List.filter_cons_of_neg hno, List.filter_cons_of_neg (by exact hno), ← hanswers, answer_forgotten hx ha]
      | true => rw [List.filter_cons_of_pos ha, List.filter_cons_of_pos (by exact ha), answers_cons hx, hanswers, List.map_cons]

end Packets

section Runs
variable (ldefault : Ptr) (ldsize : Int16) (lddim : Mcvec)

/-- Edits, and messages but the command to quit, leave nothing behind: the run that reads all packets gives away the answers to
    them, and the run that reads the others only gives away the same answers to those, and remembers the same of the player. -/
theorem starts_forgets (as : List Asked) (rest : List UInt8) :
    ∃ h ct w, Starts ldefault ldsize lddim (as.flatMap Asked.form.write ++ rest) h (ct, w) ∧
      w.stdout = (Player.nobody.answers (lload ldefault ldsize lddim) as).1.flatMap Answer.bytes ∧
      match (Player.nobody.answers (lload ldefault ldsize lddim) as).2 with
      | none => ct ≠ .invalid ∧ cloop w ct = none
      | some p => ct = .evtno ∧ w.stdin = ⟨rest, false⟩ ∧ Conforms (lload ldefault ldsize lddim) p w ∧
          (Player.nobody.answers (lload ldefault ldsize lddim) as).1.length = as.length ∧
          ∃ h' w', Starts ldefault ldsize lddim ((as.filter Asked.remembered).flatMap Asked.form.write ++ rest) h' (.evtno, w') ∧
            w'.stdin = ⟨rest, false⟩ ∧ Conforms (lload ldefault ldsize lddim) p w' ∧
            w'.stdout = ((as.zip (Player.nobody.answers (lload ldefault ldsize lddim) as).1).filter fun p => p.1.remembered).flatMap
              fun p => p.2.bytes := by
  have hlevel : (lload ldefault ldsize lddim).filelen ≤ 32767 := Int16.toInt_le ldsize
  obtain ⟨n, ct, w, ⟨h, hrun, -⟩, hout, hend⟩ := packets_does as (csetup_conforms (lload ldefault ldsize lddim)
    (as.flatMap Asked.form.write ++ rest)) hlevel rfl
  refine ⟨h, ct, w, hrun, hout, ?_⟩
  cases hp : (Player.nobody.answers (lload ldefault ldsize lddim) as).2 with
  | none =>
    rw [hp] at hend
    exact hend
  | some p =>
    rw [hp] at hend
    obtain ⟨hct, -, hconforms, hstdin⟩ := hend
    obtain ⟨hlen, hanswers⟩ := answers_forgotten hp
    obtain ⟨n', ct', w', ⟨h', hrun', -⟩, hout', hend'⟩ := packets_does (as.filter Asked.remembered)
      (csetup_conforms (lload ldefault ldsize lddim) ((as.filter Asked.remembered).flatMap Asked.form.write ++ rest)) hlevel rfl
    rw [hanswers] at hout' hend'
    obtain ⟨rfl, -, hconforms', hstdin'⟩ := hend'
    refine ⟨hct, hstdin, hconforms, hlen, h', w', hrun', hstdin', hconforms', ?_⟩
    have hfresh : (csetup (lload ldefault ldsize lddim) ((as.filter Asked.remembered).flatMap Asked.form.write ++ rest)).stdout =
      [] := rfl
    rw [hout', hfresh, List.nil_append, List.flatMap_map]

end Runs

end ClassicX
