import ClassicX.Mccp.Packet
import ClassicX.Server.Bridge

/-! The bridge relays every answer as long as no piece that it reads ends with a byte 1 before the answer does: it
takes such a byte for the ping. -/

namespace ClassicX
open Runs (Run Always)

/-- What was sent is each answer without its ping, and no answer is left out. -/
structure Relays (replies : List (List UInt8)) (s : Bridge) : Prop where
  own : ∀ (k : ℕ) (x : List UInt8), s.sent[k]? = some x → replies[k]? = some (x ++ [1])
  concat : s.sent.flatten = ((replies.take s.sent.length).map List.dropLast).flatten
  all : s.serial = [] → s.sent.length + s.replies.length = replies.length

/-- The piece that is read ends with a byte 1, and the answer goes on. -/
def Relay.Cut (t : Relay) : Prop :=
  ∃ n, t.act = .read n ∧ n < t.s.serial.length ∧ (t.s.serial.take n).getLast? = some 1

/-- What a run keeps while no answer is cut: the answers `done` were sent, and what was read of the next one and what is
    still to be read of it make it up. -/
def Holding (replies : List (List UInt8)) (s : Bridge) : Prop :=
  ∃ done : List (List UInt8), (∀ r ∈ done, r.getLast? = some 1) ∧ s.sent = done.map List.dropLast ∧
    (s.outbuf = none ∧ s.serial = [] ∧ replies = done ++ s.replies ∨
      ∃ outbuf, s.outbuf = some outbuf ∧ s.serial ≠ [] ∧ (outbuf ++ s.serial).getLast? = some 1 ∧
        replies = done ++ (outbuf ++ s.serial) :: s.replies)

theorem dropLast_concat {r : List UInt8} (h : r.getLast? = some 1) : r.dropLast ++ [1] = r :=
  List.dropLast_append_getLast? 1 (Option.mem_def.mpr h)

theorem Holding.relays {replies : List (List UInt8)} {s : Bridge} (h : Holding replies s) : Relays replies s := by
  obtain ⟨done, hends, hsent, hstate⟩ := h
  obtain ⟨rest, hrest, hlen⟩ : ∃ rest, replies = done ++ rest ∧ (s.serial = [] → rest = s.replies) := by
    rcases hstate with ⟨-, -, h⟩ | ⟨outbuf, -, hne, -, h⟩
    · exact ⟨_, h, fun _ => rfl⟩
    · exact ⟨_, h, fun hnil => absurd hnil hne⟩
  refine ⟨fun k x hx => ?_, ?_, fun hnil => ?_⟩
  · rw [hsent, List.getElem?_map, Option.map_eq_some_iff] at hx
    obtain ⟨r, hr, rfl⟩ := hx
    rw [hrest, List.getElem?_append_left (List.getElem?_eq_some_iff.mp hr).1, hr,
      dropLast_concat (hends r (List.mem_of_getElem? hr))]
  · rw [hsent, List.length_map, hrest, List.take_left]
  · rw [hsent, List.length_map, hrest, List.length_append, hlen hnil]

theorem turn_eq (outbuf piece : List UInt8) : loop.turn outbuf piece =
    if piece ≠ [] ∧ piece.getLast? = some 1 then .inr (outbuf ++ piece).dropLast else .inl (outbuf ++ piece) := by
  rw [loop.turn]
  by_cases hnil : piece = []
  · subst hnil
    simp
  · have hlen : ¬(outbuf ++ piece).length = outbuf.length := by
      rw [List.length_append]
      have := List.length_pos_iff.mpr hnil
      omega
    have hlast : (outbuf ++ piece).getLast? = piece.getLast? := List.getLast?_append_of_ne_nil _ hnil
    simp only [if_neg hlen, hlast, ne_eq, hnil, not_false_eq_true, true_and]

section Port
variable {p p' : Port} {n : ℕ}

/-- A read ends the exchange if the last byte of the piece is 1. -/
theorem port_read (h : p.read n = some p') : ∃ outbuf, p.outbuf = some outbuf ∧ n ≤ p.serial.length ∧
    ((p.serial.take n).getLast? = some 1 ∧ p' = ⟨p.serial.drop n, none, p.sent ++ [(outbuf ++ p.serial.take n).dropLast]⟩ ∨
      (p.serial.take n).getLast? ≠ some 1 ∧ p' = ⟨p.serial.drop n, some (outbuf ++ p.serial.take n), p.sent⟩) := by
  rw [Port.read] at h
  cases houtbuf : p.outbuf with
  | none =>
    rw [houtbuf] at h
    cases h
  | some outbuf =>
    simp only [houtbuf, Option.ite_none_right_eq_some, turn_eq] at h
    obtain ⟨⟨-, hn⟩, h⟩ := h
    refine ⟨outbuf, rfl, hn, ?_⟩
    by_cases hone : (p.serial.take n).getLast? = some 1
    · have hne : p.serial.take n ≠ [] := by
        intro hnil
        rw [hnil] at hone
        cases hone
      rw [if_pos ⟨hne, hone⟩] at h
      exact Or.inl ⟨hone, (Option.some.inj h).symm⟩
    · rw [if_neg fun hl => hone hl.2] at h
      exact Or.inr ⟨hone, (Option.some.inj h).symm⟩

theorem port_reads {outbuf : List UInt8} (houtbuf : p.outbuf = some outbuf) (hlen : n ≤ READLEN) (hn : n ≤ p.serial.length) :
    (p.read n).isSome := by
  simp only [Port.read, houtbuf, if_pos (And.intro hlen hn)]
  split <;> rfl

/-- What came over the serial port, in order: what was sent, a byte 1 more for each answer, and what is still to be sent. -/
def Port.passed (p : Port) : List UInt8 := p.sent.flatMap (· ++ [1]) ++ p.outbuf.getD [] ++ p.serial

theorem passed_grows (bs : List UInt8) : Port.passed { p with serial := p.serial ++ bs } = p.passed ++ bs :=
  (List.append_assoc _ _ _).symm

/-- A piece that is read is in `outbuf`, or was sent but for the byte 1 at its end. -/
theorem passed_read (h : p.read n = some p') : p'.passed = p.passed := by
  obtain ⟨outbuf, houtbuf, -, hp'⟩ := port_read h
  have hsplit : outbuf ++ p.serial.take n ++ p.serial.drop n = outbuf ++ p.serial := by
    rw [List.append_assoc, List.take_append_drop]
  rw [Port.passed, Port.passed, houtbuf, Option.getD_some, List.append_assoc _ outbuf, ← hsplit, ← List.append_assoc]
  rcases hp' with ⟨hone, rfl⟩ | ⟨-, rfl⟩
  · obtain ⟨piece, hpiece⟩ := List.getLast?_eq_some_iff.mp hone
    have hend : (outbuf ++ p.serial.take n).dropLast ++ [1] = outbuf ++ p.serial.take n := by
      rw [hpiece, ← List.append_assoc, List.dropLast_concat]
    rw [List.flatMap_append, List.flatMap_singleton, hend, Option.getD_none, List.append_nil]
  · rfl

end Port

section Step
variable {replies : List (List UInt8)} {t : Relay}

/-- A request takes the next answer. -/
theorem request_holding (hends : ∀ r ∈ replies, r.getLast? = some 1) (h : Holding replies t.s)
    (hact : t.act = .request) (hok : loop.relay.Ok t) : Holding replies t.s' := by
  obtain ⟨⟨⟨serial, outbuf, sent⟩, rs⟩, act, s'⟩ := t
  obtain ⟨done, hdone, hsent, hstate⟩ := h
  obtain rfl : act = .request := hact
  rcases hstate with ⟨rfl, rfl, hreplies⟩ | ⟨b, rfl, -⟩
  · cases rs with
    | nil => cases hok
    | cons r rs =>
      have hstep : some ⟨⟨[] ++ r, some [], sent⟩, rs⟩ = some s' := hok
      obtain rfl := Option.some.inj hstep
      have hr : r.getLast? = some 1 := hends r (hreplies ▸ List.mem_append_right _ List.mem_cons_self)
      refine ⟨done, hdone, hsent, Or.inr ⟨[], rfl, ?_, hr, hreplies⟩⟩
      rintro rfl
      cases hr
  · cases hok

/-- A step that does not cut an answer keeps what a run holds. One that does sends less than the answer. -/
theorem step_holding (hends : ∀ r ∈ replies, r.getLast? = some 1) (h : Holding replies t.s) (hok : loop.relay.Ok t) :
    t.Cut ∧ ¬Relays replies t.s' ∨ ¬t.Cut ∧ Holding replies t.s' := by
  cases hact : t.act with
  | request =>
    refine Or.inr ⟨fun hcut => ?_, request_holding hends h hact hok⟩
    obtain ⟨n, hn, -⟩ := hcut
    rw [hact] at hn
    cases hn
  | read n =>
    obtain ⟨⟨⟨serial, outbuf, sent⟩, rs⟩, act, s'⟩ := t
    obtain ⟨done, hdone, hsent, hstate⟩ := h
    obtain rfl : act = .read n := hact
    have hstep : (Port.read ⟨serial, outbuf, sent⟩ n).map (fun port => (⟨port, rs⟩ : Bridge)) = some s' := hok
    obtain ⟨port, hread, rfl⟩ := Option.map_eq_some_iff.mp hstep
    obtain ⟨b, houtbuf, -, hport⟩ := port_read hread
    dsimp only at hport
    obtain rfl : outbuf = some b := houtbuf
    rcases hstate with ⟨hnone, -⟩ | ⟨b', hb, hne, hlast, hreplies⟩
    · cases hnone
    obtain rfl : b = b' := Option.some.inj hb
    replace hsent : sent = done.map List.dropLast := hsent
    replace hreplies : replies = done ++ (b ++ serial) :: rs := hreplies
    have hcut : Relay.Cut ⟨⟨⟨serial, some b, sent⟩, rs⟩, .read n, ⟨port, rs⟩⟩ ↔
        n < serial.length ∧ (serial.take n).getLast? = some 1 :=
      ⟨fun ⟨_, hn, h⟩ => loop.Act.read.inj hn ▸ h, fun h => ⟨n, rfl, h⟩⟩
    rcases hport with ⟨hone, rfl⟩ | ⟨hone, rfl⟩
    · by_cases hlt : n < serial.length
      · -- The exchange ends with a part of its answer.
        refine Or.inl ⟨hcut.mpr ⟨hlt, hone⟩, fun hrel => ?_⟩
        have hown := hrel.own done.length (b ++ serial.take n).dropLast (by simp [hsent])
        have hb : (b ++ serial.take n).getLast? = some 1 := by
          rw [List.getLast?_append, hone]
          rfl
        rw [dropLast_concat hb, hreplies, List.getElem?_append_right le_rfl, Nat.sub_self, List.getElem?_cons_zero] at hown
        have hlen := congrArg List.length (Option.some.inj hown)
        simp only [List.length_append, List.length_take] at hlen
        omega
      · refine Or.inr ⟨fun h => hlt (hcut.mp h).1, done ++ [b ++ serial], ?_, ?_, Or.inl ⟨rfl, ?_, ?_⟩⟩
        · rintro r hr
          rcases List.mem_append.mp hr with hr | hr
          · exact hdone r hr
          · rw [List.mem_singleton.mp hr]
            exact hlast
        · rw [List.take_of_length_le (by omega)]
          simp [hsent]
        · exact List.drop_eq_nil_iff.mpr (by omega)
        · simp [hreplies]
    · have hmore : serial.drop n ≠ [] := by
        intro hnil
        have hall : serial.take n = serial := List.take_of_length_le (List.drop_eq_nil_iff.mp hnil)
        rw [List.getLast?_append_of_ne_nil _ hne, ← hall] at hlast
        exact hone hlast
      refine Or.inr ⟨fun h => hone (hcut.mp h).2, done, hdone, hsent, Or.inr ⟨_, rfl, hmore, ?_, ?_⟩⟩
      · rw [List.append_assoc, List.take_append_drop]
        exact hlast
      · rw [List.append_assoc, List.take_append_drop]
        exact hreplies

end Step

/-- Every answer is relayed as it is exactly where no piece cuts an answer after a byte 1. -/
theorem relays_iff {replies : List (List UInt8)} (hends : ∀ r ∈ replies, r.getLast? = some 1) {h : List Relay} {s : Bridge}
    (hrun : Run loop.relay { replies := replies } h s) :
    Always (fun _ t => Relays replies t.s') h ↔ Always (fun _ t => ¬t.Cut) h := by
  have hinit : Holding replies { replies := replies } := ⟨[], nofun, rfl, Or.inl ⟨rfl, rfl, rfl⟩⟩
  refine hrun.always_iff (fun _ s => Holding replies s) hinit (fun _ t hh hok hk => ?_) fun _ t hh hok => ?_
  · exact (step_holding hends hh hok).resolve_left (fun h => hk h.1) |>.2
  · rcases step_holding hends hh hok with ⟨hcut, hno⟩ | ⟨hcut, hh'⟩
    · exact iff_of_false hno (not_not.mpr hcut)
    · exact iff_of_true hh'.relays hcut

/-- The answer to a block edit at ⟨1, 1, 1⟩. -/
def editReply : List UInt8 := packet 7 .bupdate (.bup ⟨⟨1, 1, 1⟩, 1, 1⟩) ++ packet 7 .ping .null

/-- A piece of two bytes and the rest. -/
theorem relays_iff_edit : ∃ (h : List Relay) (s : Bridge), Run loop.relay { replies := [editReply] } h s ∧
    s.sent = [editReply.dropLast] ∧ (Always (fun _ t => Relays [editReply] t.s') h ↔ Always (fun _ t => ¬t.Cut) h) :=
  have hrun := loop.steps_run { replies := [editReply] } [.request, .read 2, .read 7]
  ⟨_, _, hrun, by decide, relays_iff (by decide) hrun⟩

/-- A piece that ends with the first coordinate is taken for the whole answer. -/
theorem edit_cut : ∃ (h : List Relay) (s : Bridge), Run loop.relay { replies := [editReply] } h s ∧
    s.sent = [[6, 0]] ∧ ¬Always (fun _ t => Relays [editReply] t.s') h := by
  have hrun := loop.steps_run { replies := [editReply] } [.request, .read 3]
  refine ⟨_, _, hrun, by decide, fun hall => ?_⟩
  have hown := hall.2.own 0 [6, 0] rfl
  revert hown
  decide

end ClassicX
