import ClassicX.Server.Link
import ClassicX.Theorems.Relay
import ClassicX.Theorems.Requests

/-! A player behind the bridge. While no piece that the bridge reads ends with a byte 1 before the server has answered, every
request is answered with the answers to its packets, but for the last ping, in every order of the steps of the bridge and of
the server. -/

namespace ClassicX
open Formats Formats.Format
open Runs (Run Always)

/-! ### An exchange -/

/-- The server and the bridge wait for a request. -/
structure Link.Waits (l : Lvl) (p : Player) (s : Link) : Prop where
  serves : Serves s.ct s.w
  ct : s.ct = .evtno
  conforms : Conforms l p s.w
  stdin : s.w.stdin = ⟨[], false⟩
  serial : s.serial = []
  outbuf : s.outbuf = none

/-- A request is being answered with `bytes`: what the server has not given away yet, it gives in `m` iterations. -/
structure Link.Busy (l : Lvl) (p : Player) (bytes : List UInt8) (s : Link) (m : ℕ) (w : World) (outbuf todo : List UInt8) :
    Prop where
  serves : Serves s.ct s.w
  goes : Goes (s.ct, s.w) m (.evtno, w)
  conforms : Conforms l p w
  stdin : w.stdin = ⟨[], false⟩
  out : w.stdout = s.w.stdout ++ todo
  bytes : bytes = outbuf ++ (s.serial ++ todo)
  outbuf : s.outbuf = some outbuf

/-- The piece ends with a byte 1, and the server has more to read or to give. -/
def Exchange.Cut (t : Exchange) : Prop :=
  ∃ n, t.act = .read n ∧ (t.s.serial.take n).getLast? = some 1 ∧ (n < t.s.serial.length ∨ (t.s.step .serve).isSome)

section Exchanges
variable {l : Lvl} {p p' : Player} {s s' : Link} {bytes outbuf todo : List UInt8} {m n : ℕ} {w : World}

/-- A request of packets that are all answered. -/
theorem request_busy {as : List Asked} {asked : List (List UInt8)} (hs : s.Waits l p) (hlevel : l.filelen ≤ 32767)
    (hne : as.flatMap Asked.form.write ≠ []) (hasked : s.asked = as.flatMap Asked.form.write :: asked)
    (hp : (p.answers l as).2 = some p') (hstep : s.step .request = some s') :
    s'.asked = asked ∧ s'.sent = s.sent ∧ s'.serial = [] ∧
      ∃ w, s'.Busy l p' (reply (p.answers l as).1) (fields as) w [] (reply (p.answers l as).1) := by
  simp only [Link.step, hs.outbuf, hasked, if_neg hne, Option.some.injEq] at hstep
  subst hstep
  have hstdin : (⟨s.w.stdin.rest ++ as.flatMap Asked.form.write, s.w.stdin.eof⟩ : Stdin) =
      ⟨as.flatMap Asked.form.write ++ [], false⟩ := by rw [hs.stdin, List.append_nil]; rfl
  have heof : s.w.stdin.eof = false := by rw [hs.stdin]
  obtain ⟨m, ct, w, hgoes, hout, hend⟩ := packets_does as (conforms_unread hs.conforms _) hlevel (congrArg Stdin.rest hstdin)
  rw [hp] at hend
  obtain ⟨rfl, rfl, hconforms, hleft⟩ := hend
  refine ⟨rfl, rfl, hs.serial, w, serves_unread hs.serves heof _, ?_, hconforms,
    hleft.trans (congrArg (Stdin.mk []) (congrArg Stdin.eof hstdin)), hout, ?_, rfl⟩
  · rw [hs.ct]
    exact hgoes
  · rw [hs.serial]
    rfl

/-- The server has given the whole answer away. -/
theorem Link.Busy.given (hs : s.Busy l p bytes 0 w outbuf todo) : s.ct = .evtno ∧ s.w = w ∧ todo = [] ∧
    s.step .serve = none := by
  have hgoes := hs.goes.det (.refl _)
  obtain ⟨hct, hw⟩ := Prod.mk.inj hgoes
  have hout := hs.out
  rw [← hw, List.self_eq_append_right] at hout
  refine ⟨hct.symm, hw.symm, hout, if_neg fun h => ?_⟩
  rw [← hct, ← hw, mcctlen_evtno hs.conforms.boundary.pv, hs.stdin] at h
  exact absurd h.2 (by decide)

/-- The server has not: it goes on. -/
theorem Link.Busy.goes_on (hs : s.Busy l p bytes (m + 1) w outbuf todo) : ∃ s₁, s.ct ≠ .invalid ∧ cloop s.w s.ct = some s₁ ∧
    Goes s₁ m (.evtno, w) ∧ (s.step .serve).isSome := by
  obtain ⟨⟨nxt, w₁⟩, hct, hr, hgoes⟩ := goes_head hs.goes
  have hfed := cloop_fed_whole hct hr (goes_eof hgoes (congrArg Stdin.eof hs.stdin))
  refine ⟨(nxt, w₁), hct, hr, hgoes, ?_⟩
  simp only [Link.step, if_pos (And.intro hct hfed), hr]
  rfl

/-- An iteration of the server. -/
theorem serve_busy (hs : s.Busy l p bytes m w outbuf todo) (hstep : s.step .serve = some s') :
    s'.asked = s.asked ∧ s'.sent = s.sent ∧
      ∃ m' todo', m = m' + 1 ∧ s'.Busy l p bytes m' w outbuf todo' ∧ s'.serial ++ todo' = s.serial ++ todo := by
  cases m with
  | zero =>
    rw [hs.given.2.2.2] at hstep
    cases hstep
  | succ m =>
    obtain ⟨s₁, hct, hr, hgoes, -⟩ := hs.goes_on
    simp only [Link.step, Option.ite_none_right_eq_some, hr, Option.map_some, Option.some.injEq] at hstep
    obtain ⟨-, rfl⟩ := hstep
    have hok : start.loop.Ok ⟨s.ct, s.w, s₁.1, s₁.2⟩ := ⟨hct, hr⟩
    have hserves₁ : Serves s₁.1 s₁.2 := step_serves hs.serves hok
    obtain ⟨todo', htodo⟩ := goes_grows hgoes
    have hgrows : s.w.stdout ++ s₁.2.stdout.drop s.w.stdout.length = s₁.2.stdout := answer_grows hok
    have hsplit : todo = s₁.2.stdout.drop s.w.stdout.length ++ todo' := by
      have hout := hs.out.symm.trans htodo
      rw [← hgrows, List.append_assoc] at hout
      exact List.append_cancel_left hout
    have hsame : s.serial ++ s₁.2.stdout.drop s.w.stdout.length ++ todo' = s.serial ++ todo := by rw [hsplit, List.append_assoc]
    exact ⟨rfl, rfl, m, todo', rfl, ⟨hserves₁, hgoes, hs.conforms, hs.stdin, htodo, hsame ▸ hs.bytes, hs.outbuf⟩, hsame⟩

theorem read_port (hstep : s.step (.read n) = some s') : ∃ port, s.toPort.read n = some port ∧ s' = { s with toPort := port } := by
  obtain ⟨port, hport, rfl⟩ := Option.map_eq_some_iff.mp hstep
  exact ⟨port, hport, rfl⟩

/-- A piece is read that does not end with a byte 1. -/
theorem read_busy (hs : s.Busy l p bytes m w outbuf todo) (hone : (s.serial.take n).getLast? ≠ some 1)
    (hstep : s.step (.read n) = some s') : s'.asked = s.asked ∧ s'.sent = s.sent ∧ s'.serial = s.serial.drop n ∧
      s'.Busy l p bytes m w (outbuf ++ s.serial.take n) todo := by
  obtain ⟨port, hport, rfl⟩ := read_port hstep
  obtain ⟨b, hb, -, ⟨hend, -⟩ | ⟨-, rfl⟩⟩ := port_read hport
  · exact absurd hend hone
  · obtain rfl : outbuf = b := Option.some.inj (hs.outbuf.symm.trans hb)
    refine ⟨rfl, rfl, rfl, hs.serves, hs.goes, hs.conforms, hs.stdin, hs.out, ?_, rfl⟩
    rw [hs.bytes, List.append_assoc, ← List.append_assoc (s.serial.take n), List.take_append_drop]

/-- The last piece is read. What is sent is the answer without the byte 1 at its end. -/
theorem read_waits (hs : s.Busy l p bytes m w outbuf todo) (hone : (s.serial.take n).getLast? = some 1)
    (hstep : s.step (.read n) = some s') (hcut : ¬Exchange.Cut ⟨s, .read n, s'⟩) :
    s'.asked = s.asked ∧ s'.sent = s.sent ++ [bytes.dropLast] ∧ s'.Waits l p := by
  obtain ⟨port, hport, rfl⟩ := read_port hstep
  obtain ⟨b, hb, hn, hport⟩ := port_read hport
  obtain rfl : outbuf = b := Option.some.inj (hs.outbuf.symm.trans hb)
  obtain ⟨-, rfl⟩ := hport.resolve_right fun h => h.1 hone
  have hno : ¬(n < s.serial.length ∨ (s.step .serve).isSome) := fun h => hcut ⟨n, rfl, hone, h⟩
  have hall : n = s.serial.length := by omega
  cases m with
  | succ m =>
    obtain ⟨-, -, -, -, hserve⟩ := hs.goes_on
    exact absurd (Or.inr hserve) hno
  | zero =>
    obtain ⟨hct, rfl, rfl, -⟩ := hs.given
    refine ⟨rfl, ?_, hs.serves, hct, hs.conforms, hs.stdin, ?_, rfl⟩
    · rw [hs.bytes, hall, List.take_length, List.append_nil]
    · rw [hall]
      exact List.drop_length

theorem read_length (hstep : s.step (.read n) = some s') : n ≤ s.serial.length := by
  obtain ⟨port, hport, -⟩ := read_port hstep
  obtain ⟨-, -, hn, -⟩ := port_read hport
  exact hn

/-- There is more to be read while the answer ends with a byte 1 and no piece did. -/
theorem busy_more (hs : s.Busy l p bytes m w outbuf todo) (hlast : bytes.getLast? = some 1) (hmore : s.serial ++ todo ≠ [])
    (hone : (s.serial.take n).getLast? ≠ some 1) : s.serial.drop n ++ todo ≠ [] := by
  intro hnil
  obtain ⟨hdrop, htodo⟩ := List.append_eq_nil_iff.mp hnil
  have hpiece : s.serial.take n = s.serial := by
    have happend := List.take_append_drop n s.serial
    rwa [hdrop, List.append_nil] at happend
  rw [htodo, List.append_nil] at hmore
  rw [hs.bytes, htodo, List.append_nil, List.getLast?_append_of_ne_nil _ hmore, ← hpiece] at hlast
  exact hone hlast

end Exchanges

/-! ### Every run -/

/-- The server has read what was asked from the start of it on, and what it gave away was sent, but for the bytes 1 at the ends,
    or is in `outbuf` or on the serial port. -/
structure Relayed (ldefault : Ptr) (ldsize : Int16) (lddim : Mcvec) (asked : List (List UInt8)) (s : Link) : Prop where
  eof : s.w.stdin.eof = false
  reads : ∃ (got : List (List UInt8)) (h : List Iter),
    asked = got ++ s.asked ∧ Starts ldefault ldsize lddim got.flatten h (s.ct, s.w)
  gives : s.w.stdout = s.passed

section Relays
variable {ldefault : Ptr} {ldsize : Int16} {lddim : Mcvec} {asked : List (List UInt8)} {s s' : Link} {act : Link.Act}

theorem request_relayed (hs : Relayed ldefault ldsize lddim asked s) (hstep : s.step .request = some s') :
    Relayed ldefault ldsize lddim asked s' := by
  obtain ⟨got, h, hasked, hrun⟩ := hs.reads
  have hgives := hs.gives
  rw [Link.step] at hstep
  split at hstep
  case h_2 => cases hstep
  case h_1 inbuf left houtbuf hleft =>
    rw [hleft] at hasked
    split at hstep
    case isTrue hnil =>
      obtain rfl := Option.some.inj hstep
      refine ⟨hs.eof, ⟨got ++ [inbuf], h, hasked.trans (List.append_cons _ _ _), ?_⟩, hgives⟩
      rw [List.flatten_concat, hnil, List.append_nil]
      exact hrun
    case isFalse =>
      obtain rfl := Option.some.inj hstep
      obtain ⟨read, hgot, hanew⟩ := starts_anew hrun hs.eof
      obtain ⟨h', hrun', -⟩ := hanew (s.w.stdin.rest ++ inbuf)
      have hunread : s.w.unread ⟨s.w.stdin.rest ++ inbuf, s.w.stdin.eof⟩ = s.w.unread ⟨s.w.stdin.rest ++ inbuf, false⟩ := by
        rw [hs.eof]
      rw [← List.append_assoc, ← hgot, ← hunread] at hrun'
      rw [Port.passed, houtbuf] at hgives
      refine ⟨hs.eof, ⟨got ++ [inbuf], h', hasked.trans (List.append_cons _ _ _), ?_⟩, hgives⟩
      rw [List.flatten_concat]
      exact hrun'

theorem serve_relayed (hs : Relayed ldefault ldsize lddim asked s) (hstep : s.step .serve = some s') :
    Relayed ldefault ldsize lddim asked s' := by
  obtain ⟨got, h, hasked, hrun⟩ := hs.reads
  rw [Link.step, Option.ite_none_right_eq_some] at hstep
  obtain ⟨⟨hct, hfed⟩, hstep⟩ := hstep
  obtain ⟨⟨nxt, w'⟩, hr, rfl⟩ := Option.map_eq_some_iff.mp hstep
  have hok : start.loop.Ok ⟨s.ct, s.w, nxt, w'⟩ := ⟨hct, hr⟩
  have hgrows : s.w.stdout ++ w'.stdout.drop s.w.stdout.length = w'.stdout := answer_grows hok
  have heof : w'.stdin.eof = false := by
    have hlen := mcctlen_nonneg s.w.z.session hct
    have htake : (s.w.stdin.rest.take (mcctlen s.w.z.session s.ct).toNat).length = (mcctlen s.w.z.session s.ct).toNat := by
      rw [List.length_take]
      omega
    rw [cloop_left hr, input, hs.eof, htake]
    exact decide_eq_false (lt_irrefl _)
  refine ⟨heof, ⟨got, _, hasked, Run.next (S := start.loop) _ hrun hok⟩, ?_⟩
  rw [passed_grows, ← hs.gives]
  exact hgrows.symm

theorem read_relayed {n : ℕ} (hs : Relayed ldefault ldsize lddim asked s) (hstep : s.step (.read n) = some s') :
    Relayed ldefault ldsize lddim asked s' := by
  obtain ⟨port, hport, rfl⟩ := read_port hstep
  exact ⟨hs.eof, hs.reads, hs.gives.trans (passed_read hport).symm⟩

theorem link_relayed {h : List Exchange} (hrun : Run link (.first ldefault ldsize lddim asked) h s) :
    Relayed ldefault ldsize lddim asked s := by
  refine hrun.inv (fun _ s => Relayed ldefault ldsize lddim asked s) ⟨rfl, ⟨[], [], rfl, .start⟩, rfl⟩ fun h t hs hok => ?_
  have hstep : t.s.step t.act = some t.s' := hok
  cases hact : t.act with
  | request => exact request_relayed hs (hact ▸ hstep)
  | serve => exact serve_relayed hs (hact ▸ hstep)
  | read n => exact read_relayed hs (hact ▸ hstep)

/-- In every run, whatever is asked: the server is where a run on the standard files is that has the requests taken so far as
    its input, and what this run gives away was sent, a byte 1 less for each request, or is about to be sent, in order. -/
theorem link_relays {h : List Exchange} (hrun : Run link (.first ldefault ldsize lddim asked) h s) :
    ∃ (got : List (List UInt8)) (h' : List Iter), asked = got ++ s.asked ∧
      Starts ldefault ldsize lddim got.flatten h' (s.ct, s.w) ∧
      s.w.stdout = s.sent.flatMap (· ++ [1]) ++ s.outbuf.getD [] ++ s.serial := by
  have hinv : Relayed ldefault ldsize lddim asked s := link_relayed hrun
  obtain ⟨got, h', hasked, hstarts⟩ := hinv.reads
  exact ⟨got, h', hasked, hstarts, hinv.gives⟩

/-- A state of a player who has not greeted is answered with a ping, of which nothing is left to send. -/
theorem link_relays_ping : ∃ (h : List Exchange) (s : Link),
    Run link (.first (fun _ => 0) 0 {} [[8, 255, 0, 1, 2, 3, 4, 5, 6, 7], [5]]) h s ∧ s.sent = [[]] ∧
    ∃ (got : List (List UInt8)) (h' : List Iter), [[8, 255, 0, 1, 2, 3, 4, 5, 6, 7], [5]] = got ++ s.asked ∧
      Starts (fun _ => 0) 0 {} got.flatten h' (s.ct, s.w) ∧ s.w.stdout = [1] := by
  have hrun := Link.steps_run (.first (fun _ => 0) 0 {} [[8, 255, 0, 1, 2, 3, 4, 5, 6, 7], [5]])
    [.request, .serve, .serve, .serve, .read 1]
  obtain ⟨got, h', hasked, hstarts, hgives⟩ := link_relays hrun
  exact ⟨_, _, hrun, by decide +kernel, got, h', hasked, hstarts, hgives.trans (by decide +kernel)⟩

end Relays

/-! ### Runs -/

/-- The requests that are not `left` were answered, and what is known of the player is `p`. -/
structure Link.Answered (l : Lvl) (ass : List (List Asked)) (s : Link) (p : Player) (left : List (List Asked)) : Prop where
  courteous : Courteous p left
  sent : ∃ done, Player.nobody.replies l ass = done ++ p.replies l left ∧ s.sent = done.map fun xs => (reply xs).dropLast

/-- Between two requests, and while the first of those that are left is answered, with `n` steps to go at most. The requests of
    `rest` come behind them. -/
inductive Linked (l : Lvl) (ass : List (List Asked)) (rest : List (List UInt8)) (s : Link) (n : ℕ) : Prop
  | waits {p : Player} {left : List (List Asked)} {now : List (List UInt8)} (answered : s.Answered l ass p left)
      (requests : Requests left now) (asked : s.asked = now ++ rest) (waits : s.Waits l p)
      (work : n = now.length + p.work l left)
  | works {p p' : Player} {as : List Asked} {left : List (List Asked)} {now : List (List UInt8)} {m : ℕ} {w : World}
      {outbuf todo : List UInt8} (answered : s.Answered l ass p (as :: left)) (requests : Requests left now)
      (asked : s.asked = now ++ rest) (next : (p.answers l as).2 = some p')
      (busy : s.Busy l p' (reply (p.answers l as).1) m w outbuf todo) (more : s.serial ++ todo ≠ [])
      (work : n = m + (s.serial ++ todo).length + now.length + p'.work l left)

section Runs
variable {l : Lvl} {ass : List (List Asked)} {rest : List (List UInt8)} {s s' : Link} {n : ℕ} {act : Link.Act}

theorem Link.Waits.step {p : Player} (hs : s.Waits l p) (hstep : s.step act = some s') : act = .request := by
  cases act with
  | request => rfl
  | serve =>
    simp only [Link.step, hs.ct, hs.stdin, mcctlen_evtno hs.conforms.boundary.pv] at hstep
    cases hstep
  | read n =>
    obtain ⟨port, hport, -⟩ := read_port hstep
    obtain ⟨outbuf, houtbuf, -⟩ := port_read hport
    rw [hs.outbuf] at houtbuf
    cases houtbuf

/-- While a request of the first is left. Every step but the one that reads nothing comes nearer to the end. -/
theorem step_linked (hlevel : l.filelen ≤ 32767) (hs : Linked l ass rest s n) (hstep : s.step act = some s')
    (hcut : ¬Exchange.Cut ⟨s, act, s'⟩) :
    (∃ n', Linked l ass rest s' n' ∧ (act ≠ .read 0 → n' < n)) ∨
      act = .request ∧ s.asked = rest ∧ ∃ p, s.Answered l ass p [] ∧ s.Waits l p := by
  cases hs with
  | @waits p left now answered requests asked waits work =>
    obtain rfl := waits.step hstep
    cases now with
    | nil =>
      rw [requests.nil] at answered
      exact Or.inr ⟨rfl, asked, p, answered, waits⟩
    | cons inbuf now =>
      left
      rw [List.length_cons] at work
      by_cases hne : inbuf = []
      · subst hne
        simp only [Link.step, waits.outbuf, asked, List.cons_append, if_true, Option.some.injEq] at hstep
        subst hstep
        refine ⟨_, .waits ⟨answered.courteous, answered.sent⟩ requests.closed rfl
          ⟨waits.serves, waits.ct, waits.conforms, waits.stdin, waits.serial, waits.outbuf⟩ rfl, fun _ => ?_⟩
        omega
      · obtain ⟨as, left, rfl, rfl, hleft⟩ := requests.cons hne
        obtain ⟨p', hp, -⟩ := answered.courteous.first (l := l)
        obtain ⟨hasked, hsent, hserial, w, hbusy⟩ := request_busy waits hlevel hne asked hp hstep
        have hmore : s'.serial ++ reply (p.answers l as).1 ≠ [] := by
          have hlast := answered.courteous.reply_last (l := l)
          intro hnil
          rw [hserial, List.nil_append] at hnil
          rw [hnil] at hlast
          cases hlast
        refine ⟨_, .works ⟨answered.courteous, hsent.symm ▸ answered.sent⟩ hleft hasked hp hbusy hmore rfl, fun _ => ?_⟩
        rw [work, work_cons hp, hserial, List.nil_append]
        omega
  | @works p p' as left now m w outbuf todo answered requests asked next busy more work =>
    left
    cases act with
    | request =>
      simp only [Link.step, busy.outbuf] at hstep
      cases hstep
    | serve =>
      obtain ⟨hasked, hsent, m', todo', rfl, hbusy, hsame⟩ := serve_busy busy hstep
      refine ⟨_, .works ⟨answered.courteous, hsent.symm ▸ answered.sent⟩ requests (hasked.trans asked) next hbusy
        (hsame ▸ more) rfl, fun _ => ?_⟩
      rw [work, hsame]
      omega
    | read n =>
      have hlast := answered.courteous.reply_last (l := l)
      rw [List.length_append] at work
      by_cases hone : (s.serial.take n).getLast? = some 1
      · obtain ⟨hasked, hsent, hwaits⟩ := read_waits busy hone hstep hcut
        obtain ⟨p₁, hp₁, hcourteous, -⟩ := answered.courteous.first (l := l)
        obtain rfl : p' = p₁ := Option.some.inj (next.symm.trans hp₁)
        obtain ⟨done, hdone, hbefore⟩ := answered.sent
        refine ⟨_, .waits ⟨hcourteous, done ++ [(p.answers l as).1], ?_, ?_⟩ requests (hasked.trans asked) hwaits rfl, fun _ => ?_⟩
        · rw [hdone, replies_cons next, List.append_assoc]
          rfl
        · rw [hsent, hbefore, List.map_append]
          rfl
        · have hpos : 0 < s.serial.length := List.length_pos_iff.mpr fun hnil => by
            rw [hnil, List.take_nil] at hone
            cases hone
          omega
      · obtain ⟨hasked, hsent, hserial, hbusy⟩ := read_busy busy hone hstep
        refine ⟨_, .works ⟨answered.courteous, hsent.symm ▸ answered.sent⟩ requests (hasked.trans asked) next hbusy
          (hserial ▸ busy_more busy hlast more hone) rfl, fun hact => ?_⟩
        have hread := read_length hstep
        have hpos : n ≠ 0 := fun h => hact (congrArg Link.Act.read h)
        rw [hserial, List.length_append, List.length_drop]
        omega

theorem Linked.answered (hs : Linked l ass rest s n) : ∃ p left, s.Answered l ass p left := by
  cases hs with
  | waits answered _ _ _ _ => exact ⟨_, _, answered⟩
  | works answered _ _ _ _ _ _ => exact ⟨_, _, answered⟩

/-- What was passed to `remo.send`. -/
theorem Link.Answered.sent_eq {p : Player} {left : List (List Asked)} (hs : s.Answered l ass p left) :
    s.sent = ((Player.nobody.replies l ass).take s.sent.length).map fun xs => (reply xs).dropLast := by
  obtain ⟨done, hdone, hsent⟩ := hs.sent
  rw [hdone, hsent, List.length_map, List.take_left]

end Runs

section Clients
variable {ldefault : Ptr} {ldsize : Int16} {lddim : Mcvec} {ass : List (List Asked)} {asked : List (List UInt8)}
  {h : List Exchange} {s : Link}

theorem first_linked (ldefault : Ptr) (ldsize : Int16) (lddim : Mcvec) (hass : Courteous .nobody ass) (hasked : Requests ass asked)
    (rest : List (List UInt8)) :
    Linked (lload ldefault ldsize lddim) ass rest (.first ldefault ldsize lddim (asked ++ rest))
      (asked.length + Player.nobody.work (lload ldefault ldsize lddim) ass) :=
  .waits ⟨hass, [], rfl, rfl⟩ hasked rfl ⟨csetup_serves ldefault ldsize lddim [], rfl, csetup_conforms _ _, rfl, rfl, rfl⟩ rfl

/-- A run on requests of a player, of which `k` steps do not read nothing. -/
theorem link_linked (hass : Courteous .nobody ass) (hasked : Requests ass asked)
    (hrun : Run link (.first ldefault ldsize lddim asked) h s) (hcut : Always (fun _ t => ¬t.Cut) h) :
    ∃ n, Linked (lload ldefault ldsize lddim) ass [] s n ∧
      (Always (fun _ t => t.act ≠ .read 0) h →
        h.length + n ≤ asked.length + Player.nobody.work (lload ldefault ldsize lddim) ass) := by
  have hfirst := first_linked ldefault ldsize lddim hass hasked []
  rw [List.append_nil] at hfirst
  refine hrun.inv_always (fun h s => ∃ n, Linked (lload ldefault ldsize lddim) ass [] s n ∧
    (Always (fun _ t => t.act ≠ .read 0) h →
      h.length + n ≤ asked.length + Player.nobody.work (lload ldefault ldsize lddim) ass))
    ⟨_, hfirst, fun _ => (Nat.zero_add _).le⟩ (fun h t hs hok hk => ?_) hcut
  obtain ⟨n, hlinked, hlen⟩ := hs
  rcases step_linked (Int16.toInt_le ldsize) hlinked hok hk with ⟨n', hlinked', hless⟩ | ⟨hact, hasked, p, -, hwaits⟩
  · refine ⟨n', hlinked', fun hmoves => ?_⟩
    have hlen := hlen hmoves.1
    have hless := hless hmoves.2
    rw [List.length_cons]
    omega
  · have hok : t.s.step t.act = some t.s' := hok
    have hasked : t.s.asked = [] := hasked
    have houtbuf : t.s.outbuf = none := hwaits.outbuf
    simp only [hact, Link.step, houtbuf, hasked] at hok
    cases hok

/-- Something more can happen unless all the requests were answered. -/
theorem Linked.quiet {l : Lvl} {n : ℕ} (hs : Linked l ass [] s n) (hquiet : ∀ act s', s.step act = some s' → act = .read 0) :
    ∃ p, s.Answered l ass p [] := by
  cases hs with
  | @waits p left now answered requests asked waits work =>
    cases now with
    | nil => exact ⟨p, requests.nil ▸ answered⟩
    | cons inbuf now =>
      have hstep : (s.step .request).isSome := by
        simp only [Link.step, waits.outbuf, asked, List.cons_append]
        split <;> rfl
      obtain ⟨s', hs'⟩ := Option.isSome_iff_exists.mp hstep
      cases hquiet _ _ hs'
  | @works p p' as left now m w outbuf todo answered requests asked next busy more work =>
    cases m with
    | succ m =>
      obtain ⟨-, -, -, -, hserve⟩ := busy.goes_on
      obtain ⟨s', hs'⟩ := Option.isSome_iff_exists.mp hserve
      cases hquiet _ _ hs'
    | zero =>
      obtain ⟨-, -, htodo, -⟩ := busy.given
      rw [htodo, List.append_nil] at more
      have hreads := port_reads busy.outbuf (by decide : 1 ≤ READLEN) (List.length_pos_iff.mpr more)
      obtain ⟨port, hport⟩ := Option.isSome_iff_exists.mp hreads
      have hstep : s.step (.read 1) = some { s with toPort := port } := congrArg (Option.map _) hport
      cases hquiet _ _ hstep

/-- A player behind the bridge, who greets first with the version `v` and a name that is not too long, and with no other
    version or name later, hears the answers to the packets of each request, but for the last ping: at any time those to the
    first requests, and to all of them where nothing more can happen. The connection may be closed and another one accepted
    between any two requests. -/
theorem link_heard (hass : Courteous .nobody ass) {v : Int} (hfirst : ∀ a ∈ ass.flatten.head?, a.version = some v)
    (hversion : ∀ a ∈ ass.flatten, a.version = none ∨ a.version = some v) (hasked : Requests ass asked)
    (hrun : Run link (.first ldefault ldsize lddim asked) h s) (hcut : Always (fun _ t => ¬t.Cut) h) :
    (Player.nobody.replies (lload ldefault ldsize lddim) ass).flatten =
        (Player.nobody.answers (lload ldefault ldsize lddim) ass.flatten).1 ∧
      (Heard.form v).all s.sent.flatten = (((Player.nobody.replies (lload ldefault ldsize lddim) ass).take s.sent.length).flatMap
        fun xs => (xs.flatMap (Answer.hears v)).dropLast, []) ∧
      ((∀ act s', s.step act = some s' → act = .read 0) → s.sent.length = ass.length) := by
  obtain ⟨n, hlinked, -⟩ := link_linked hass hasked hrun hcut
  obtain ⟨hlength, hflatten, -⟩ := hass.all (l := lload ldefault ldsize lddim)
  refine ⟨hflatten, ?_, fun hquiet => ?_⟩
  · obtain ⟨p, left, answered⟩ := hlinked.answered
    exact sent_heard hass hfirst hversion answered.sent_eq
  · obtain ⟨p, answered⟩ := hlinked.quiet hquiet
    obtain ⟨done, hdone, hsent⟩ := answered.sent
    rw [hsent, List.length_map, ← hlength, hdone]
    simp [Player.replies]

instance Exchange.Cut.decidable (t : Exchange) : Decidable t.Cut :=
  match h : t.act with
  | .request => isFalse fun ⟨_, hact, _⟩ => Link.Act.noConfusion (h.symm.trans hact)
  | .serve => isFalse fun ⟨_, hact, _⟩ => Link.Act.noConfusion (h.symm.trans hact)
  | .read n =>
    decidable_of_iff ((t.s.serial.take n).getLast? = some 1 ∧ (n < t.s.serial.length ∨ (t.s.step .serve).isSome))
      ⟨fun hp => ⟨n, h, hp⟩, fun ⟨_, hact, hp⟩ => Link.Act.read.inj (h.symm.trans hact) ▸ hp⟩

/-- The greeting is read in three iterations, and its answer in two pieces. -/
theorem link_heard_join : ∃ (h : List Exchange) (s : Link),
    Run link (.first (fun _ => 0) 0 {} [Asked.form.write (.greeting0 letterName (by decide)), []]) h s ∧ s.asked = [] ∧
    ((Heard.form 0).all s.sent.flatten).1.map Sigma.fst = [.pgreeting, .lnew, .ldim, .enew, .enew] ∧
    (Heard.form 0).all s.sent.flatten =
      (((Player.nobody.replies (lload (fun _ => 0) 0 {}) [[.greeting0 letterName (by decide)]]).take s.sent.length).flatMap
        fun xs => (xs.flatMap (Answer.hears 0)).dropLast, []) := by
  have hrun := Link.steps_run (.first (fun _ => 0) 0 {} [Asked.form.write (.greeting0 letterName (by decide)), []])
    [.request, .serve, .serve, .read 0, .serve, .read 3, .read 219, .request]
  obtain ⟨hass, hasked⟩ := letter_requests
  have hheard := link_heard (v := 0) hass (by simp [Asked.version]) (by simp [Asked.version]) hasked hrun (by decide +kernel)
  exact ⟨_, _, hrun, by decide +kernel, by decide +kernel, hheard.2.1⟩

/-- Whatever their order, the steps that read something, serve or call `remo.recv` come to an end: there is one for each call, one
    for each field of the packets, and at most one for each byte of the answers. -/
theorem link_ends (hass : Courteous .nobody ass) (hasked : Requests ass asked)
    (hrun : Run link (.first ldefault ldsize lddim asked) h s) (hcut : Always (fun _ t => ¬t.Cut) h)
    (hmoves : Always (fun _ t => t.act ≠ .read 0) h) :
    h.length ≤ asked.length + (ass.flatten.map fun a => a.packet.parts.length).sum +
      ((Player.nobody.answers (lload ldefault ldsize lddim) ass.flatten).1.flatMap Answer.bytes).length := by
  obtain ⟨n, -, hlen⟩ := link_linked hass hasked hrun hcut
  calc h.length
    _ ≤ h.length + n := Nat.le_add_right _ _
    _ ≤ asked.length + Player.nobody.work (lload ldefault ldsize lddim) ass := hlen hmoves
    _ = _ := by
      rw [hass.work_eq, ← Nat.add_assoc]
      rfl

/-- The greeting takes three iterations, and 222 bytes are answered. -/
theorem link_ends_join : ∃ (h : List Exchange) (s : Link),
    Run link (.first (fun _ => 0) 0 {} [Asked.form.write (.greeting0 letterName (by decide)), []]) h s ∧ h.length = 7 ∧
    s.asked = [] ∧ h.length ≤ 2 + 3 + 222 := by
  have hrun := Link.steps_run (.first (fun _ => 0) 0 {} [Asked.form.write (.greeting0 letterName (by decide)), []])
    [.request, .serve, .serve, .serve, .read 3, .read 219, .request]
  obtain ⟨hass, hasked⟩ := letter_requests
  have hends := link_ends hass hasked hrun (by decide +kernel) (by decide +kernel)
  exact ⟨_, _, hrun, by decide +kernel, by decide +kernel, hends.trans_eq (by decide +kernel)⟩

/-! ### Refusals -/

/-- A goodbye has no byte 1. -/
theorem bye_silent {v : Int} : 1 ∉ ([.bye (text "Your name is too long!")] : List (Heard v)).flatMap (Heard.form v).write := by
  have hbye : ([.bye (text "Your name is too long!")] : List (Heard v)).flatMap (Heard.form v).write =
      0x0E :: (Str.line (text "Your name is too long!")).val ++ [] := rfl
  rw [hbye]
  decide +kernel

/-- Who greets with a name that is too long, at a version below 3, is told goodbye and nothing else. -/
theorem refused_answer {l : Lvl} {p : Player} {a : Asked} {v : Int} (hversion : a.version = some v) (hv : v < 3)
    (hlong : ¬a.Introduces) : ∃ p', (p.answers l [a]).2 = some p' ∧ 1 ∉ reply (p.answers l [a]).1 := by
  have hgreeted : ∀ {v : Int} (version : Known v) {name : Str}, v < 3 → ¬trimmed name.val ≤ 20 →
      1 ∉ (p.greeted l v version name).bytes := by
    intro v version name hv hlong
    have hbye : p.greeted l v version name = ⟨p.introduces v version .refused refused_ne,
        ([.bye (text "Your name is too long!")] : List (Heard v))⟩ := by
      rw [Player.greeted, if_neg hlong]
      exact if_pos hv
    rw [hbye]
    exact bye_silent
  have hreply : ∀ {x : Answer}, p.answer l a = some x → 1 ∉ x.bytes →
      ∃ p', (p.answers l [a]).2 = some p' ∧ 1 ∉ reply (p.answers l [a]).1 := by
    intro x hx hsilent
    rw [answers_cons hx]
    refine ⟨_, rfl, ?_⟩
    rw [Player.answers, reply, List.flatMap_singleton]
    exact hsilent
  cases a with
  | greeting0 name printable =>
    cases hversion
    exact hreply rfl (hgreeted known_zero hv hlong)
  | greeting v known name pass flags =>
    cases hversion
    exact hreply rfl (hgreeted (known_of known) hv hlong)
  | _ => cases hversion

/-- What is answered to a request has no byte 1: the bridge goes on to read. -/
structure Silenced (l : Lvl) (ass : List (List Asked)) (rest : List (List UInt8)) (s : Link) : Prop where
  sent : ∃ p, s.Answered l ass p []
  asked : s.asked = rest
  busy : ∃ p bytes m w outbuf todo, s.Busy l p bytes m w outbuf todo ∧ 1 ∉ bytes

theorem step_silenced {l : Lvl} {rest : List (List UInt8)} {s' : Link} {act : Link.Act} (hs : Silenced l ass rest s)
    (hstep : s.step act = some s') : Silenced l ass rest s' := by
  obtain ⟨p, answered⟩ := hs.sent
  obtain ⟨p', bytes, m, w, outbuf, todo, busy, hsilent⟩ := hs.busy
  cases act with
  | request =>
    simp only [Link.step, busy.outbuf] at hstep
    cases hstep
  | serve =>
    obtain ⟨hasked, hsent, m', todo', -, hbusy, -⟩ := serve_busy busy hstep
    exact ⟨⟨p, answered.courteous, hsent.symm ▸ answered.sent⟩, hasked.trans hs.asked, _, _, _, _, _, _, hbusy, hsilent⟩
  | read n =>
    have hone : (s.serial.take n).getLast? ≠ some 1 := by
      intro hone
      have hserial := List.mem_of_mem_take (List.mem_of_getLast? hone)
      refine hsilent ?_
      rw [busy.bytes]
      exact List.mem_append_right _ (List.mem_append_left _ hserial)
    obtain ⟨hasked, hsent, -, hbusy⟩ := read_busy busy hone hstep
    exact ⟨⟨p, answered.courteous, hsent.symm ▸ answered.sent⟩, hasked.trans hs.asked, _, _, _, _, _, _, hbusy, hsilent⟩

/-- After a greeting of a version below 3 with a name that is too long nothing is sent any more, and no later request is
    read. -/
theorem link_silent (hass : Courteous .nobody ass) {a : Asked} {v : Int} (hversion : a.version = some v) (hv : v < 3)
    (hlong : ¬a.Introduces) (hasked : Requests ass asked) (rest : List (List UInt8))
    (hrun : Run link (.first ldefault ldsize lddim (asked ++ Asked.form.write a :: rest)) h s)
    (hcut : Always (fun _ t => ¬t.Cut) h) :
    s.sent = ((Player.nobody.replies (lload ldefault ldsize lddim) ass).take s.sent.length).map
        (fun xs => (xs.flatMap Answer.bytes).dropLast) ∧ rest <:+ s.asked := by
  have hlevel : (lload ldefault ldsize lddim).filelen ≤ 32767 := Int16.toInt_le ldsize
  have hinv : (∃ n, Linked (lload ldefault ldsize lddim) ass (Asked.form.write a :: rest) s n) ∨
      Silenced (lload ldefault ldsize lddim) ass rest s := by
    refine hrun.inv_always (fun _ s => (∃ n, Linked (lload ldefault ldsize lddim) ass (Asked.form.write a :: rest) s n) ∨
      Silenced (lload ldefault ldsize lddim) ass rest s) (Or.inl ⟨_, first_linked _ _ _ hass hasked _⟩)
      (fun h t hs hok hk => ?_) hcut
    have hok : t.s.step t.act = some t.s' := hok
    rcases hs with ⟨n, hs⟩ | hs
    · rcases step_linked hlevel hs hok hk with ⟨n', hs', -⟩ | ⟨hact, hasked, p, hanswered, hwaits⟩
      · exact Or.inl ⟨n', hs'⟩
      · obtain ⟨p', hp, hsilent⟩ := refused_answer (l := lload ldefault ldsize lddim) (p := p) hversion hv hlong
        have hrequest : Asked.form.write a = [a].flatMap Asked.form.write := (List.append_nil _).symm
        have hne : [a].flatMap Asked.form.write ≠ [] := hrequest ▸ Asked.proper a
        rw [hact] at hok
        rw [hrequest] at hasked
        obtain ⟨hasked', hsent, -, w, hbusy⟩ := request_busy hwaits hlevel hne hasked hp hok
        exact Or.inr ⟨⟨p, hanswered.courteous, hsent.symm ▸ hanswered.sent⟩, hasked', _, _, _, _, _, _, hbusy, hsilent⟩
    · exact Or.inr (step_silenced hs hok)
  rcases hinv with ⟨n, hs⟩ | hs
  · obtain ⟨p, left, answered⟩ := hs.answered
    refine ⟨answered.sent_eq, ?_⟩
    cases hs with
    | waits _ _ asked _ _ => exact asked ▸ ⟨_, (List.append_cons _ _ _).symm⟩
    | works _ _ asked _ _ _ _ => exact asked ▸ ⟨_, (List.append_cons _ _ _).symm⟩
  · obtain ⟨p, answered⟩ := hs.sent
    exact ⟨answered.sent_eq, hs.asked ▸ List.suffix_refl _⟩

/-- A name of 64 letters. The server waits for more, and the bridge too. -/
theorem link_silent_long : ∃ (h : List Exchange) (s : Link),
    Run link (.first (fun _ => 0) 0 {} [Asked.form.write (.greeting0 longName (by decide)), [8]]) h s ∧
    s.outbuf.map List.length = some 65 ∧ s.sent = [] ∧ [[8]] <:+ s.asked := by
  have hrun := Link.steps_run (.first (fun _ => 0) 0 {} [Asked.form.write (.greeting0 longName (by decide)), [8]])
    [.request, .serve, .serve, .serve, .read 64, .read 1]
  have hass : Courteous .nobody [] := ⟨nofun, nofun, Or.inr nofun⟩
  have hasked : Requests [] [] := rfl
  obtain ⟨hsent, hasked⟩ := link_silent (v := 0) hass (a := .greeting0 longName (by decide)) rfl (by decide)
    (by decide +kernel : ¬trimmed longName.val ≤ 20) hasked [[8]] hrun (by decide +kernel)
  exact ⟨_, _, hrun, by decide +kernel, hsent.trans (List.map_eq_nil_iff.mpr List.take_nil), hasked⟩

end Clients

end ClassicX
