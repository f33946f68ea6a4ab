import ClassicX.Spec.Server
import ClassicX.Theorems.Heard

/-! What the handlers give away, in the words of what the server is for. -/

namespace ClassicX
open Formats.Format

/-! ### Texts -/

section Texts

theorem val_of (bs : List UInt8) (h : bs.length ≤ 64) : (Str.of bs).val = bs ++ List.replicate (64 - bs.length) 0x20 := by
  have hmin : min (64 - bs.length) 64 = 64 - bs.length := by omega
  show (bs ++ List.replicate 64 0x20).take 64 = _
  rw [List.take_append, List.take_of_length_le h, List.take_replicate, hmin]

theorem text_field (p : Ptr) {n : ℕ} (hn : n ≤ 64) : Str.field (some p) n = Str.of (p.take n) := by
  have hpiece : Fields.piece (some p) 0x20 n = p.take n := rfl
  have hflat : (strField (some p) n).flat = Fields.text (some p) n 0x20 64 := rfl
  refine Subtype.ext (hflat.trans ?_)
  rw [val_of _ (by rw [length_take]; exact hn), Fields.text_eq_piece_replicate p 0x20 hn, hpiece, length_take]

theorem blank_field (len : Int) : Str.field none len = Str.of [] := by
  refine Subtype.ext ?_
  simp [Str.field, Str.of, strField, Fields.Item.flat, Fields.text, MCSTRLEN]

theorem line_field (p : Ptr) : Str.field (some p) (slen p) = Str.line (p.take 64) := by
  have hself : (p.take 64).take 64 = p.take 64 := take_take p le_rfl
  refine Subtype.ext ((strField_slen p).trans ?_)
  rw [padded, Str.line, hself, val_of _ (length_string_le p)]

/-- The bytes of a list, with NULs behind them. -/
theorem take_list (bs : List UInt8) (n : ℕ) : Ptr.take (fun i => bs.getD i.toNat 0) n = (bs ++ List.replicate n 0).take n := by
  refine List.ext_getElem (by simp) fun i h₁ h₂ => ?_
  have hi : i < n := by
    rw [length_take] at h₁
    exact h₁
  rw [List.getElem_take, List.getElem_append]
  simp only [Ptr.take, Fields.piece, List.getElem_map, List.getElem_range, Int.toNat_natCast, List.getD_eq_getElem?_getD]
  split
  · rename_i hin
    rw [List.getElem?_eq_getElem hin, Option.getD_some]
  · rename_i hout
    rw [List.getElem?_eq_none (by omega), List.getElem_replicate]
    rfl

theorem takeWhile_zeros (bs : List UInt8) (n : ℕ) :
    ((bs ++ List.replicate n 0).take n).takeWhile (· ≠ 0) = (bs.take n).takeWhile (· ≠ 0) := by
  induction n generalizing bs with
  | zero => simp
  | succ n ih =>
    cases bs with
    | nil => simp [List.replicate_succ]
    | cons b bs =>
      have hsplit : (bs ++ List.replicate (n + 1) 0).take n = (bs ++ List.replicate n (0 : UInt8)).take n := by
        rw [List.take_append, List.take_append, List.take_replicate, List.take_replicate]
        congr 2
        omega
      simp only [List.cons_append, List.take_succ_cons, List.takeWhile_cons, hsplit, ih]

theorem line_list (bs : List UInt8) :
    Str.field (some fun i => bs.getD i.toNat 0) (slen fun i => bs.getD i.toNat 0) = Str.line bs := by
  have h64 : ((bs ++ List.replicate 64 0).take 64).take 64 = (bs ++ List.replicate 64 0).take 64 := by
    rw [List.take_take, min_self]
  rw [line_field, take_list, Str.line, Str.line, h64, takeWhile_zeros]

theorem line_text (s : String) : Str.field (some (cchr s)) (slen (cchr s)) = Str.line (text s) := line_list (text s)

end Texts

/-! ### Events -/

section Events
variable {v : Int}

theorem spells_one {e : Sent} {t : Heard v} (h : e.heard v = some t) : Spells v [e] [t] := by
  rw [Spells, List.map_singleton, List.map_singleton, h]

theorem Spells.cons {e : Sent} {t : Heard v} {es : List Sent} {ts : List (Heard v)} (h : e.heard v = some t) (h' : Spells v es ts) :
    Spells v (e :: es) (t :: ts) := (spells_one h).append h'

theorem heard_ping : Sent.heard v ping = some .ping := rfl

theorem heard_chat (eno : Int8) (msg : Ptr) : Sent.heard v (chat eno msg) = some ⟨.cmsg, (eno, Str.line (msg.take 64))⟩ := by
  rw [← line_field]
  rfl

theorem heard_text (eno : Int8) (s : String) : Sent.heard v (chat eno (cchr s)) = some (.chat eno (text s)) := by
  rw [Heard.chat, ← line_text]
  rfl

theorem heard_bye (s : String) : Sent.heard v (bye (cchr s)) = some (.bye (text s)) := by
  rw [Heard.bye, ← line_text]
  rfl

theorem heard_greeting : Sent.heard v (.pgreeting, .gto (segreeting.grt v)) = some (.greeting v) := by
  rw [Heard.greeting, ← line_text, ← line_text]
  rfl

theorem heard_spawn (e : Mcent) {p : Ptr} {n : ℕ} (hn : n ≤ 64) (henam : e.enam = some p) (henln : e.enln = n) :
    Sent.heard v (.enew, .eno e) = some (.spawn e.eno (p.take n) e.epos e.head) := by
  rw [Heard.spawn, ← text_field p hn, ← henam, ← henln]
  rfl

theorem heard_spawn_blank (e : Mcent) (henam : e.enam = none) :
    Sent.heard v (.enew, .eno e) = some (.spawn e.eno [] e.epos e.head) := by
  rw [Heard.spawn, ← blank_field e.enln, ← henam]
  rfl

theorem spells_joins (l : Lvl) : Spells v (joins v l) (Heard.joins v l) := by
  refine ((Spells.cons heard_greeting (spells_one rfl)).append ?_).append
    (Spells.cons rfl (Spells.cons (heard_spawn spawnPlayer (p := cchr "You") (n := 3) (by decide) rfl rfl)
      (Spells.cons (heard_spawn spawnClone (p := cchr "&8You") (n := 5) (by decide) rfl rfl) (spells_one heard_ping))))
  rw [Spells, List.map_map, List.map_map]
  refine List.map_congr_left fun j _ => ?_
  have hmin : min (l.clen j) MCARRAYLEN = l.clen j := min_eq_left (min_le_right _ _)
  have hheard : Sent.heard v (.ldata, .cho ⟨some (l.cdat.incr (1024 * j)), l.clen j, l.clen j, 0⟩) =
      some ⟨.ldata, (Int16.ofInt (min (l.clen j) MCARRAYLEN), Arr.of (l.cdat.incr (1024 * j)) (l.clen j), 0)⟩ := rfl
  rw [hmin] at hheard
  exact hheard

/-- A state is told with the number 0, whoever it is of. -/
theorem spells_moves (s : Player) (old : Mceup) (hepos : old.epos = s.epos) (hhead : old.head = s.head) (epos : Mcvec)
    (head : Mchead) : Spells s.pv (moves s.pv old { epos := epos, head := head }) (s.moves epos head) := by
  have hsame : mcescmp old { epos := epos, head := head } =
      mcescmp { epos := s.epos, head := s.head } { epos := epos, head := head } := by
    rw [← hepos, ← hhead]
    rfl
  rw [moves, Player.moves, hsame]
  generalize mcescmp { epos := s.epos, head := s.head } { epos := epos, head := head } = d
  by_cases heq : d = .eq
  · rw [if_pos heq.symm]
    simp only [if_pos heq]
    exact .nil
  · rw [if_neg (Ne.symm heq)]
    simp only [if_neg heq]
    by_cases hv : 0 = s.pv
    · rw [if_pos hv]
      simp only [dif_pos hv]
      exact spells_one rfl
    · rw [if_neg hv]
      simp only [dif_neg hv]
      cases d with
      | eq => exact absurd rfl heq
      | all =>
        simp only [mirrors, hepos]
        refine spells_one ?_
        rw [Sent.heard, Src.content, dif_pos hv]
        rfl
      | _ =>
        simp only [mirrors, hepos]
        exact spells_one rfl

/-- The program keeps the name in `e`. -/
def Names (e : Mcent) : Naming → Prop
  | .unknown => e.enam = none
  | .refused => e.enam ≠ none ∧ e.enln = -1
  | .known name => ∃ p, e.enam = some p ∧ p.take name.val.length = name.val ∧ e.enln = name.val.length

theorem names_callable {e : Mcent} {n : Naming} (h : Names e n) : e.Callable ↔ n ≠ .refused := by
  cases n with
  | unknown => exact iff_of_true (fun hsome => by rw [h] at hsome; cases hsome) refused_ne.symm
  | refused =>
    refine iff_of_false (fun hcall => ?_) fun hne => hne rfl
    have hpos := hcall (Option.isSome_iff_ne_none.mpr h.1)
    rw [h.2] at hpos
    exact absurd hpos (by decide)
  | known name =>
    obtain ⟨p, -, -, henln⟩ := h
    exact iff_of_true (fun _ => by rw [henln]; exact Int.natCast_nonneg _) (known_unlike name).2

theorem names_unknown {e : Mcent} {n : Naming} (h : Names e n) : e.enam = none ↔ n = .unknown := by
  cases n with
  | unknown => exact iff_of_true h rfl
  | refused => exact iff_of_false h.1 refused_ne
  | known name =>
    obtain ⟨p, henam, -⟩ := h
    exact iff_of_false (by rw [henam]; exact Option.some_ne_none p) (known_unlike name).1

/-- The name is what a spawn tells. -/
theorem heard_named {e : Mcent} {name : { bs : List UInt8 // 1 ≤ bs.length ∧ bs.length ≤ 20 }} (h : Names e (.known name))
    (e' : Mcent) (henam : e'.enam = e.enam) (henln : e'.enln = e.enln) :
    Sent.heard v (.enew, .eno e') = some (.spawn e'.eno name.val e'.epos e'.head) := by
  obtain ⟨p, hp, htake, hlen⟩ := h
  have h64 : name.val.length ≤ 64 := by
    have hname := name.property
    omega
  rw [heard_spawn e' h64 (henam.trans hp) (henln.trans hlen), htake]

theorem spells_again {e : Mcent} {name : List UInt8} (hspawn : ∀ e' : Mcent, e'.enam = e.enam → e'.enln = e.enln →
    Sent.heard v (.enew, .eno e') = some (.spawn e'.eno name e'.epos e'.head)) :
    Spells v (respawns v e) [.died 0, .greeting v, .spawn (-1) name { e.epos with y := e.epos.y - 20 } e.head,
      .spawn 0 name e.epos e.head, .ping] := by
  have hlow : 0 > (-1 : Int8) ∧ ¬0 > (0 : Int8) := by decide
  rw [respawns, senewactr.ent, senewactr.ent]
  simp only [if_pos hlow.1, if_neg hlow.2]
  exact .cons rfl (.cons heard_greeting (.cons (hspawn _ rfl rfl) (.cons (hspawn _ rfl rfl) (spells_one heard_ping))))

theorem spells_respawns (s : Player) {e : Mcent} (hname : Names e s.name) (hepos : e.epos = s.epos) (hhead : e.head = s.head)
    {ts : List (Heard s.pv)} (h : s.respawns = some ts) : Spells s.pv (respawns s.pv e) ts := by
  rw [Player.respawns, ← hepos, ← hhead] at h
  cases hn : s.name with
  | unknown =>
    rw [hn] at h hname
    cases h
    exact spells_again fun e' henam _ => heard_spawn_blank e' (henam.trans hname)
  | refused =>
    rw [hn] at h
    cases h
  | known name =>
    rw [hn] at h hname
    cases h
    exact spells_again (heard_named hname)

theorem respawns_none {s : Player} : s.respawns = none ↔ s.name = .refused := by
  rw [Player.respawns]
  cases s.name <;> simp

theorem again_none {s : Player} : s.again = none ↔ s.ctr = 512 ∧ s.name = .refused := by
  rw [Player.again, ← respawns_none]
  split <;> simp [*]

end Events

end ClassicX
