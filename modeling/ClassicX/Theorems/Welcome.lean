import ClassicX.Theorems.Conversations

/-! A player whose greetings all give a name that is not too long, and who greets first, is answered to the end: every packet
has an answer, which ends with a ping. -/

namespace ClassicX
open Formats Formats.Format
open Runs (Run)

/-- If the packet is a greeting, its name is not too long. -/
def Asked.Polite (a : Asked) : Prop := a.version = none ∨ a.Introduces

/-- A ping, and nothing after it. -/
def Answer.Pinged (x : Answer) : Prop := x.heard.getLast? = some .ping

/-- The player has given a name that is not too long. -/
def Player.Named (s : Player) : Prop := ∃ name, s.name = .known name

section Packets
variable {l : Lvl} {s : Player}

theorem joins_pinged (v : Int) (l : Lvl) : (Heard.joins v l).getLast? = some .ping := by
  rw [Heard.joins, List.getLast?_append_of_ne_nil _ (List.cons_ne_nil _ _)]
  rfl

theorem append_pinged {v : Int} (ts : List (Heard v)) {us : List (Heard v)} (h : us = [] ∨ us.getLast? = some .ping) :
    (ts ++ [Heard.ping] ++ us).getLast? = some .ping := by
  rcases h with rfl | h
  · rw [List.append_nil, List.getLast?_concat]
  · have hne : us ≠ [] := by
      rintro rfl
      cases h
    exact (List.getLast?_append_of_ne_nil _ hne).trans h

theorem Answer.Pinged.bytes {x : Answer} (h : x.Pinged) : x.bytes.getLast? = some 1 := by
  obtain ⟨ts, hts⟩ := List.getLast?_eq_some_iff.mp h
  have hping : [Heard.ping].flatMap (Heard.form x.next.pv).write = [1] := rfl
  rw [Answer.bytes, hts, List.flatMap_append, hping, List.getLast?_concat]

/-- What is answered to a packet of a player who has given a name. -/
structure Welcomed (s : Player) (l : Lvl) (a : Asked) (x : Answer) : Prop where
  answer : s.answer l a = some x
  named : x.next.Named
  pinged : x.Pinged

theorem again_some (hs : s.Named) : ∃ ts, s.again = some ts ∧ ((ts : List (Heard s.pv)) = [] ∨ ts.getLast? = some .ping) := by
  obtain ⟨name, hname⟩ := hs
  rw [Player.again]
  split
  · rw [Player.respawns, hname]
    exact ⟨_, rfl, Or.inr rfl⟩
  · exact ⟨[], rfl, Or.inl rfl⟩

theorem state_welcomed (hs : s.Named) (eno : Int8) (epos : Mcvec) (head : Mchead) :
    ∃ x, Welcomed s l (.plyrstat eno epos head) x := by
  have hanswer : s.answer l (.plyrstat eno epos head) = s.state l epos head := rfl
  rw [Player.state] at hanswer
  split at hanswer
  case isTrue hwaits => exact ⟨_, hanswer, hs, rfl⟩
  case isFalse hplays =>
    split at hanswer
    case isTrue hlow =>
      obtain ⟨ts, hts, hend⟩ := again_some (s := s.moved epos head) hs
      rw [hts] at hanswer
      refine ⟨_, hanswer, hs, ?_⟩
      exact append_pinged (v := s.pv) _ hend
    case isFalse hhigh => exact ⟨_, hanswer, hs, append_pinged (v := s.pv) _ (Or.inr (joins_pinged s.pv l))⟩

theorem message_welcomed (hs : s.Named) (eno : Int8) (msg : Str) : ∃ x, Welcomed s l (.chatmsg eno msg) x := by
  obtain ⟨name, hname⟩ := hs
  have hknown : s.name ≠ .unknown := by
    rw [hname]
    exact (known_unlike name).1
  have hanswer : s.answer l (.chatmsg eno msg) = s.message msg := rfl
  rw [Player.message, if_neg hknown] at hanswer
  by_cases hslash : msg.val.getD 0 0 = 0x2F
  · obtain ⟨ts, hts⟩ : ∃ ts, s.orders msg (msg.val.getD 1 0) = some ts := by
      refine Option.ne_none_iff_exists'.mp fun hnone => ?_
      exact (orders_none.mp hnone).2 name hname
    rw [if_pos hslash, hts] at hanswer
    exact ⟨_, hanswer, ⟨name, hname⟩, List.getLast?_concat⟩
  · rw [if_neg hslash] at hanswer
    simp only [hname] at hanswer
    exact ⟨_, hanswer, ⟨name, hname⟩, rfl⟩

/-- A greeting with a name that is not too long is answered with the level. -/
theorem introduces_welcomed {a : Asked} (ha : a.Introduces) : ∃ x, Welcomed s l a x := by
  have hjoins : ∀ {v : Int} (version : Known v) (name : Str), trimmed name.val ≤ 20 → ∃ x : Answer,
      some (s.greeted l v version name) = some x ∧ x.next.Named ∧ x.Pinged := by
    intro v version name h
    rw [greeted_joins version h]
    exact ⟨_, rfl, ⟨_, rfl⟩, joins_pinged v l⟩
  cases a with
  | greeting0 name printable =>
    obtain ⟨x, hx, hnamed, hpinged⟩ := hjoins known_zero name ha
    exact ⟨x, hx, hnamed, hpinged⟩
  | greeting v known name pass flags =>
    obtain ⟨x, hx, hnamed, hpinged⟩ := hjoins (known_of known) name ha
    exact ⟨x, hx, hnamed, hpinged⟩
  | _ => exact ha.elim

theorem answer_welcomed (hs : s.Named) {a : Asked} (ha : a.Polite) : ∃ x, Welcomed s l a x := by
  rcases ha with ha | ha
  · cases a with
    | greeting0 name printable => cases ha
    | greeting v known name pass flags => cases ha
    | blkedit upd =>
      obtain ⟨name, hname⟩ := hs
      have hknown : s.name ≠ .unknown := by
        rw [hname]
        exact (known_unlike name).1
      exact ⟨_, if_neg hknown, ⟨name, hname⟩, rfl⟩
    | plyrstat eno epos head => exact state_welcomed hs eno epos head
    | chatmsg eno msg => exact message_welcomed hs eno msg
  · exact introduces_welcomed ha

/-- A sequence of packets that a player sends who has given a name, or gives it in the first. -/
theorem answers_welcomed (as : List Asked) (hs : s.Named ∨ ∃ a ∈ as.head?, a.Introduces) (has : ∀ a ∈ as, a.Polite) :
    (∃ s', (s.answers l as).2 = some s' ∧ (as ≠ [] ∨ s.Named → s'.Named)) ∧ (s.answers l as).1.length = as.length ∧
      ∀ x ∈ (s.answers l as).1, x.Pinged := by
  induction as generalizing s with
  | nil => exact ⟨⟨s, rfl, fun h => h.resolve_left fun h => h rfl⟩, rfl, nofun⟩
  | cons a as ih =>
    obtain ⟨x, hx⟩ : ∃ x, Welcomed s l a x := by
      rcases hs with hs | ⟨b, hb, hintro⟩
      · exact answer_welcomed hs (has a List.mem_cons_self)
      · obtain rfl : a = b := Option.some.inj hb
        exact introduces_welcomed hintro
    obtain ⟨⟨s', hs', hnamed⟩, hlen, hpinged⟩ := ih (Or.inl hx.named) fun b hb => has b (List.mem_cons_of_mem _ hb)
    rw [answers_cons hx.answer]
    refine ⟨⟨s', hs', fun _ => hnamed (Or.inr hx.named)⟩, by rw [List.length_cons, hlen, List.length_cons], fun y hy => ?_⟩
    rcases List.mem_cons.mp hy with rfl | hy
    · exact hx.pinged
    · exact hpinged y hy

end Packets

section Runs
variable (ldefault : Ptr) (ldsize : Int16) (lddim : Mcvec)

/-- The command to quit. -/
def quitMessage : Str := ⟨0x2F :: 0x71 :: List.replicate 62 0x20, rfl⟩

/-- A player who greets first, and whose greetings all give a name that is not too long, is answered to the end: after one
    iteration for each field of the packets the run stands behind the last of them, and has given away the answers, one for each
    packet, each with a ping at its end. Where no packet follows, the next iteration ends the run and gives nothing away. -/
theorem starts_welcome (a : Asked) (as : List Asked) (ha : a.Introduces) (has : ∀ b ∈ as, b.Polite) (rest : List UInt8) :
    ∃ h w, Starts ldefault ldsize lddim ((a :: as).flatMap Asked.form.write ++ rest) h (.evtno, w) ∧
      h.length = ((a :: as).map fun b => b.packet.parts.length).sum ∧ w.stdin = ⟨rest, false⟩ ∧
      w.stdout = (Player.nobody.answers (lload ldefault ldsize lddim) (a :: as)).1.flatMap Answer.bytes ∧
      (Player.nobody.answers (lload ldefault ldsize lddim) (a :: as)).1.length = as.length + 1 ∧
      (∀ x ∈ (Player.nobody.answers (lload ldefault ldsize lddim) (a :: as)).1,
        x.heard.getLast? = some .ping ∧ x.bytes.getLast? = some 1) ∧
      (Packetless rest → ∃ w', cloop w .evtno = some (.invalid, w') ∧ w'.stdout = w.stdout) := by
  obtain ⟨⟨s', hs', -⟩, hlen, hpinged⟩ := answers_welcomed (s := .nobody) (l := lload ldefault ldsize lddim) (a :: as)
    (Or.inr ⟨a, rfl, ha⟩) fun b hb => (List.mem_cons.mp hb).elim (fun h => h ▸ Or.inr ha) (has b)
  obtain ⟨n, ct, w, ⟨h, hrun, rfl⟩, hout, hend⟩ := packets_does (a :: as) (csetup_conforms (lload ldefault ldsize lddim)
    ((a :: as).flatMap Asked.form.write ++ rest)) (Int16.toInt_le ldsize) rfl
  rw [hs'] at hend
  obtain ⟨rfl, hfields, hconforms, hstdin⟩ := hend
  refine ⟨h, w, hrun, hfields, hstdin, hout, hlen, fun x hx => ⟨hpinged x hx, (hpinged x hx).bytes⟩, fun hrest => ?_⟩
  exact packetless_ends hconforms (by rw [hstdin]; exact hrest)

/-- A greeting and the command to quit, with nothing behind them. -/
theorem starts_welcome_quit : ∃ h w,
    Starts (fun _ => 0) 0 {} ([.greeting0 letterName (by decide), .chatmsg 0 quitMessage].flatMap Asked.form.write ++ []) h
      (.evtno, w) ∧ h.length = 6 ∧ w.stdin = ⟨[], false⟩ ∧ w.stdout.length = 288 ∧ w.stdout.getLast? = some 1 ∧
      ∃ w', cloop w .evtno = some (.invalid, w') ∧ w'.stdout = w.stdout := by
  obtain ⟨h, w, hrun, hfields, hstdin, hout, -, -, hend⟩ := starts_welcome (fun _ => 0) 0 {} (.greeting0 letterName (by decide))
    [.chatmsg 0 quitMessage] (by decide +kernel : trimmed letterName.val ≤ 20)
    (by simp [Asked.Polite, Asked.version]) []
  refine ⟨h, w, hrun, hfields.trans rfl, hstdin, ?_, ?_, hend fun b hb => by cases hb⟩
  · rw [hout]
    decide +kernel
  · rw [hout]
    decide +kernel

end Runs

end ClassicX
