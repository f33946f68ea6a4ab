import ClassicX.Theorems.Causality
import ClassicX.Theorems.Platforms
import ClassicX.Theorems.Welcome

/-! What a player asks for in several requests, on one connection or on several, and what it is answered. -/

namespace ClassicX
open Formats Formats.Format
open Runs (Run)

/-! ### The server -/

section Goes
variable [P : Platform] {s s' : Mcctyp × World} {n : ℕ}

theorem goes_head (h : Goes s (n + 1) s') : ∃ s₁, s.1 ≠ .invalid ∧ cloop s.2 s.1 = some s₁ ∧ Goes s₁ n s' := by
  obtain ⟨h, hrun, hlen⟩ := h
  induction n generalizing h s' with
  | zero =>
    cases hrun with
    | start => cases hlen
    | @next h t hrun hok =>
      obtain rfl : h = [] := List.eq_nil_of_length_eq_zero (Nat.succ.inj hlen)
      cases hrun
      exact ⟨_, hok.1, hok.2, .refl _⟩
  | succ n ih =>
    cases hrun with
    | start => cases hlen
    | @next h t hrun hok =>
      obtain ⟨s₁, hct, hr, hgoes⟩ := ih h hrun (Nat.succ.inj hlen)
      exact ⟨s₁, hct, hr, hgoes.next hok.1 hok.2⟩

/-- A run that ends before the end of the input has met none. -/
theorem goes_eof (h : Goes s n s') (heof : s'.2.stdin.eof = false) : s.2.stdin.eof = false := by
  obtain ⟨h, hrun, -⟩ := h
  induction hrun with
  | start => exact heof
  | next t _ hok ih =>
    obtain ⟨bs, hstdin, -⟩ := cloop_anew hok.1 hok.2 heof
    exact ih (congrArg Stdin.eof hstdin)

/-- The server goes on only by meeting the end of the input. -/
def Settled (s : Mcctyp × World) : Prop := s.1 ≠ .invalid → ∀ s', cloop s.2 s.1 = some s' → s'.2.stdin.eof = true

/-- Where two runs from the same state cannot go on before more comes in, they are at the same place. -/
theorem goes_settled {k : ℕ} {s'' : Mcctyp × World} (h : Goes s n s') (h' : Goes s k s'') (heof : s'.2.stdin.eof = false)
    (heof' : s''.2.stdin.eof = false) (hsettled : Settled s') (hsettled' : Settled s'') : s' = s'' := by
  have hstays : ∀ {s₁ s₂ : Mcctyp × World} {j : ℕ}, Settled s₁ → s₂.2.stdin.eof = false → ¬Goes s₁ (j + 1) s₂ := by
    intro s₁ s₂ j hsettled heof hgoes
    obtain ⟨s₃, hct, hr, hgoes⟩ := goes_head hgoes
    have hmet := hsettled hct s₃ hr
    rw [goes_eof hgoes heof] at hmet
    cases hmet
  induction n generalizing s k with
  | zero =>
    obtain rfl := h.det (.refl s)
    cases k with
    | zero => exact (h'.det (.refl _)).symm
    | succ k => exact absurd h' (hstays hsettled heof')
  | succ n ih =>
    cases k with
    | zero =>
      obtain rfl := h'.det (.refl s)
      exact absurd h (hstays hsettled' heof)
    | succ k =>
      obtain ⟨s₁, -, hr, hgoes⟩ := goes_head h
      obtain ⟨s₂, -, hr', hgoes'⟩ := goes_head h'
      obtain rfl : s₁ = s₂ := Option.some.inj (hr.symm.trans hr')
      exact ih hgoes hgoes'

theorem goes_grows (h : Goes s n s') : ∃ out, s'.2.stdout = s.2.stdout ++ out := by
  obtain ⟨h, hrun, -⟩ := h
  induction hrun with
  | start => exact ⟨[], (List.append_nil _).symm⟩
  | next t _ hok ih =>
    obtain ⟨out, hout⟩ := ih
    refine ⟨out ++ t.out, ?_⟩
    have hgrows := answer_grows hok
    rw [← List.append_assoc, ← hout]
    exact hgrows.symm

/-- An iteration that met no end of the input was given all that it asks for. -/
theorem cloop_fed_whole {ct nxt : Mcctyp} {w w' : World} (hct : ct ≠ .invalid) (hr : cloop w ct = some (nxt, w'))
    (heof : w'.stdin.eof = false) : mcctlen w.z.session ct ≤ w.stdin.rest.length := by
  have hleft := cloop_left hr
  obtain ⟨hstdin, hlen⟩ := input_left (mcctlen_nonneg w.z.session hct) (hleft ▸ heof)
  have hrest := congrArg (fun s : Stdin => s.rest.length) hstdin
  simp only [List.length_append] at hrest
  omega

/-- Too few bytes are left for the next field, or none is asked for, or the step is not defined. -/
theorem settled_of {ct : Mcctyp} {w : World} (h : ct = .invalid ∨ w.stdin.rest.length < mcctlen w.z.session ct ∨ cloop w ct = none) :
    Settled (ct, w) := by
  intro hct s' hr
  rcases h with h | h | h
  · exact absurd h hct
  · by_contra heof
    have hwhole : mcctlen w.z.session ct ≤ w.stdin.rest.length := cloop_fed_whole hct hr (Bool.eq_false_iff.mpr heof)
    omega
  · rw [h] at hr
    cases hr

end Goes

theorem serves_unread {ct : Mcctyp} {w : World} (hs : Serves ct w) (heof : w.stdin.eof = false) (stdin : Stdin) :
    Serves ct (w.unread stdin) where
  fit := { hs.fit with }
  keeps := hs.keeps
  sync hct := by
    refine (hs.sync hct).imp_right fun h => ?_
    rw [heof] at h
    cases h.2.2

theorem conforms_unread {l : Lvl} {p : Player} {w : World} (hs : Conforms l p w) (stdin : Stdin) : Conforms l p (w.unread stdin) :=
  { hs with }

/-! ### Players -/

/-- The bytes that a request is answered with. -/
def reply (xs : List Answer) : List UInt8 := xs.flatMap Answer.bytes

/-- The requests of a player who has given a name, or gives it first. -/
structure Courteous (p : Player) (ass : List (List Asked)) : Prop where
  nonempty : ∀ as ∈ ass, as ≠ []
  polite : ∀ as ∈ ass, ∀ a ∈ as, a.Polite
  named : p.Named ∨ ∀ as ∈ ass.head?, ∃ a ∈ as.head?, a.Introduces

section Players
variable {l : Lvl} {p : Player} {ass : List (List Asked)}

theorem reply_last {xs : List Answer} (hne : xs ≠ []) (hxs : ∀ x ∈ xs, x.Pinged) : (reply xs).getLast? = some 1 := by
  have hlast := hxs _ (List.getLast_mem hne)
  rw [reply, ← List.dropLast_append_getLast hne, List.flatMap_append, List.flatMap_singleton]
  have hbytes := hlast.bytes
  have hnonempty : (xs.getLast hne).bytes ≠ [] := by
    intro hnil
    rw [hnil] at hbytes
    cases hbytes
  rw [List.getLast?_append_of_ne_nil _ hnonempty, hbytes]

theorem replies_cons {p' : Player} {as : List Asked} (hp : (p.answers l as).2 = some p') (ass : List (List Asked)) :
    p.replies l (as :: ass) = (p.answers l as).1 :: p'.replies l ass := by
  rw [Player.replies, hp]
  rfl

/-- The first request is answered, with a ping at the end. -/
theorem Courteous.first {as : List Asked} (h : Courteous p (as :: ass)) : ∃ p', (p.answers l as).2 = some p' ∧
    Courteous p' ass ∧ (p.answers l as).1.length = as.length ∧ ∀ x ∈ (p.answers l as).1, x.Pinged := by
  have hnamed := h.named
  simp only [List.head?_cons, Option.mem_def, Option.some.injEq, forall_eq'] at hnamed
  obtain ⟨⟨p', hp, hnext⟩, hlen, hpinged⟩ := answers_welcomed (l := l) as hnamed (h.polite as List.mem_cons_self)
  refine ⟨p', hp, ⟨?_, ?_, ?_⟩, hlen, hpinged⟩
  · exact fun bs hbs => h.nonempty bs (List.mem_cons_of_mem _ hbs)
  · exact fun bs hbs => h.polite bs (List.mem_cons_of_mem _ hbs)
  · exact Or.inl (hnext (Or.inl (h.nonempty as List.mem_cons_self)))

theorem answers_append {p' : Player} {as : List Asked} (hp : (p.answers l as).2 = some p') (bs : List Asked) :
    p.answers l (as ++ bs) = ((p.answers l as).1 ++ (p'.answers l bs).1, (p'.answers l bs).2) := by
  induction as generalizing p with
  | nil =>
    obtain rfl : p = p' := Option.some.inj hp
    rfl
  | cons a as ih =>
    cases hx : p.answer l a with
    | none =>
      rw [answers_none hx] at hp
      cases hp
    | some x =>
      rw [answers_cons hx] at hp
      rw [List.cons_append, answers_cons hx, answers_cons hx, ih hp, List.cons_append]

/-- Every request is answered, with a ping at the end. -/
theorem Courteous.all (h : Courteous p ass) : (p.replies l ass).length = ass.length ∧
    (p.replies l ass).flatten = (p.answers l ass.flatten).1 ∧
    ∀ xs ∈ p.replies l ass, xs ≠ [] ∧ ∀ x ∈ xs, x.Pinged := by
  induction ass generalizing p with
  | nil => exact ⟨rfl, rfl, nofun⟩
  | cons as ass ih =>
    obtain ⟨p', hp, hnext, hlen, hpinged⟩ := h.first (l := l)
    obtain ⟨hlength, hflatten, hall⟩ := ih hnext
    rw [replies_cons hp]
    refine ⟨by rw [List.length_cons, hlength, List.length_cons], ?_, fun xs hxs => ?_⟩
    · rw [List.flatten_cons, hflatten, List.flatten_cons, answers_append hp]
    · rcases List.mem_cons.mp hxs with rfl | hxs
      · refine ⟨fun hnil => h.nonempty as List.mem_cons_self ?_, hpinged⟩
        rw [hnil] at hlen
        exact List.eq_nil_of_length_eq_zero hlen.symm
      · exact hall xs hxs

theorem Courteous.answered (h : Courteous p ass) : ∃ p', (p.answers l ass.flatten).2 = some p' := by
  induction ass generalizing p with
  | nil => exact ⟨p, rfl⟩
  | cons as ass ih =>
    obtain ⟨p', hp, hnext, -⟩ := h.first (l := l)
    rw [List.flatten_cons, answers_append hp]
    exact ih hnext

theorem replies_take (ass left : List (List Asked)) : (p.replies l (ass ++ left)).take ass.length = p.replies l ass := by
  induction ass generalizing p with
  | nil => exact List.take_zero
  | cons as ass ih =>
    rw [List.cons_append, Player.replies, Player.replies, List.length_cons, List.take_succ_cons]
    cases (p.answers l as).2 with
    | none => rw [Option.map_none, Option.map_none, Option.getD_none, List.take_nil]
    | some p' =>
      have hnext := ih (p := p')
      exact congrArg _ hnext

theorem Courteous.before {left : List (List Asked)} (h : Courteous p (ass ++ left)) : Courteous p ass where
  nonempty as has := h.nonempty as (List.mem_append_left _ has)
  polite as has := h.polite as (List.mem_append_left _ has)
  named := by
    refine h.named.imp_right fun hnamed as has => hnamed as ?_
    rw [List.head?_append, Option.mem_def.mp has]
    rfl

/-- The fields of the packets of a request. -/
def fields (as : List Asked) : ℕ := (as.map fun a => a.packet.parts.length).sum

/-- What there is to do for requests at most: an iteration of the server for each field, and for each byte that is answered a
    piece that is read. -/
def Player.work (l : Lvl) (p : Player) (ass : List (List Asked)) : ℕ :=
  (ass.map fields).sum + ((p.replies l ass).map fun xs => (reply xs).length).sum

theorem work_cons {p' : Player} {as : List Asked} (hp : (p.answers l as).2 = some p') (ass : List (List Asked)) :
    p.work l (as :: ass) = fields as + (reply (p.answers l as).1).length + p'.work l ass := by
  simp only [Player.work, replies_cons hp, List.map_cons, List.sum_cons]
  omega

theorem Courteous.work_eq (h : Courteous p ass) :
    p.work l ass = fields ass.flatten + ((p.answers l ass.flatten).1.flatMap Answer.bytes).length := by
  obtain ⟨-, hflatten, -⟩ := h.all (l := l)
  have hfields : (ass.map fields).sum = fields ass.flatten := by
    rw [fields, List.map_flatten, List.sum_flatten, List.map_map]
    rfl
  have hreplies : ((p.replies l ass).map fun xs => (reply xs).length).sum =
      ((p.answers l ass.flatten).1.flatMap Answer.bytes).length := by
    rw [← hflatten, List.flatMap_def, List.map_flatten, List.flatten_flatten, List.length_flatten, List.map_map, List.map_map]
    rfl
  rw [Player.work, hfields, hreplies]

theorem Courteous.reply_last {p : Player} {as : List Asked} {left : List (List Asked)} (h : Courteous p (as :: left)) :
    (reply (p.answers l as).1).getLast? = some 1 := by
  obtain ⟨p', -, -, hlen, hpinged⟩ := h.first (l := l)
  refine ClassicX.reply_last (fun hnil => ?_) hpinged
  rw [hnil] at hlen
  exact h.nonempty as List.mem_cons_self (List.eq_nil_of_length_eq_zero hlen.symm)

theorem reply_heard {v : Int} {xs : List Answer} (hne : xs ≠ []) (hxs : ∀ x ∈ xs, x.Pinged) (hpv : ∀ x ∈ xs, x.next.pv = v) :
    (reply xs).dropLast = (xs.flatMap (Answer.hears v)).dropLast.flatMap (Heard.form v).write := by
  have hbytes : reply xs = (xs.flatMap (Answer.hears v)).flatMap (Heard.form v).write := by
    rw [reply, List.flatMap_assoc]
    exact List.flatMap_congr fun x hx => hears_bytes (hpv x hx)
  obtain ⟨ts, hts⟩ : ∃ ts, xs.flatMap (Answer.hears v) = ts ++ [.ping] := by
    have hlast := hxs _ (List.getLast_mem hne)
    have hpv := hpv _ (List.getLast_mem hne)
    rw [← List.dropLast_append_getLast hne, List.flatMap_append, List.flatMap_singleton]
    generalize xs.getLast hne = x at hlast hpv ⊢
    subst hpv
    obtain ⟨ts, hts⟩ := List.getLast?_eq_some_iff.mp hlast
    rw [Answer.hears, dif_pos rfl]
    exact ⟨_, by rw [hts, List.append_assoc]⟩
  have hping : [Heard.ping].flatMap (Heard.form v).write = [1] := rfl
  rw [hbytes, hts, List.dropLast_concat, List.flatMap_append, hping, List.dropLast_concat]

/-- What a client of version `v` hears that was sent the answers to some of the requests, but for the last pings. -/
theorem sent_heard (hass : Courteous .nobody ass) {v : Int} (hfirst : ∀ a ∈ ass.flatten.head?, a.version = some v)
    (hversion : ∀ a ∈ ass.flatten, a.version = none ∨ a.version = some v) {sent : List (List UInt8)}
    (hsent : sent = ((Player.nobody.replies l ass).take sent.length).map fun xs => (reply xs).dropLast) :
    (Heard.form v).all sent.flatten =
      (((Player.nobody.replies l ass).take sent.length).flatMap fun xs => (xs.flatMap (Answer.hears v)).dropLast, []) := by
  obtain ⟨-, hflatten, hall⟩ := hass.all (l := l)
  have hpv : ∀ x ∈ (Player.nobody.replies l ass).flatten, x.next.pv = v := by
    rw [hflatten]
    cases hpackets : ass.flatten with
    | nil => exact fun x hx => absurd hx List.not_mem_nil
    | cons a as =>
      rw [hpackets] at hfirst hversion
      exact answers_pv (Or.inr ⟨a, rfl, hfirst a rfl⟩) hversion
  have hflat : sent.flatten = (((Player.nobody.replies l ass).take sent.length).flatMap
      fun xs => (xs.flatMap (Answer.hears v)).dropLast).flatMap (Heard.form v).write := by
    conv_lhs => rw [hsent]
    rw [← List.flatMap_def, List.flatMap_assoc]
    refine List.flatMap_congr fun xs hxs => ?_
    have hmem := List.mem_of_mem_take hxs
    obtain ⟨hne, hpinged⟩ := hall xs hmem
    exact reply_heard hne hpinged fun x hx => hpv x (List.mem_flatten_of_mem hmem hx)
  rw [hflat, (Heard.proper v).all_flatMap]

end Players

/-- What a run gives away on whole packets that are all answered, where it cannot go on before more comes in. -/
theorem starts_settled [P : Platform] (habove : stdc.Below P) {ldefault : Ptr} {ldsize : Int16} {lddim : Mcvec} {as : List Asked} {h : List Iter} {ct : Mcctyp} {w : World}
    {p' : Player} (hp : (Player.nobody.answers (lload ldefault ldsize lddim) as).2 = some p')
    (hrun : Starts ldefault ldsize lddim (as.flatMap Asked.form.write) h (ct, w)) (heof : w.stdin.eof = false)
    (hsettled : Settled (ct, w)) :
    w.stdout = (Player.nobody.answers (lload ldefault ldsize lddim) as).1.flatMap Answer.bytes := by
  have hstdin : (csetup (lload ldefault ldsize lddim) (as.flatMap Asked.form.write)).stdin.rest = as.flatMap Asked.form.write ++ [] :=
    (List.append_nil _).symm
  obtain ⟨n, ct', w', hgoes, hout, hend⟩ := packets_does as (csetup_conforms _ _) (Int16.toInt_le ldsize) hstdin
  rw [hp] at hend
  obtain ⟨rfl, -, hconforms, hleft⟩ := hend
  have hends : Settled (.evtno, w') := by
    refine settled_of (Or.inr (Or.inl ?_))
    rw [mcctlen_evtno hconforms.boundary.pv, hleft]
    exact zero_lt_one
  have heof' : w'.stdin.eof = false := congrArg Stdin.eof hleft
  obtain rfl : w = w' := (Prod.mk.inj (goes_settled ⟨h, hrun, rfl⟩ (goes_covers habove hgoes) heof heof' hsettled hends)).2
  exact hout

/-! ### Requests -/

/-- What `remo.recv` returns is the requests of `ass`, on one connection or on several. -/
def Requests (ass : List (List Asked)) (asked : List (List UInt8)) : Prop :=
  asked.filter (· ≠ []) = ass.map (·.flatMap Asked.form.write)

section Requests
variable {ass : List (List Asked)} {inbuf : List UInt8} {asked : List (List UInt8)}

theorem Requests.nil (h : Requests ass []) : ass = [] := List.map_eq_nil_iff.mp h.symm

theorem Requests.flatten (h : Requests ass asked) : asked.flatten = ass.flatten.flatMap Asked.form.write := by
  have hpackets : ass.flatten.flatMap Asked.form.write = ass.flatMap (·.flatMap Asked.form.write) := by
    rw [List.flatten_eq_flatMap, List.flatMap_assoc]
    rfl
  rw [← List.flatten_filter_ne_nil, h, hpackets, List.flatMap_def]

/-- What was asked first, if the rest is known. -/
theorem Requests.before {left : List (List Asked)} {got : List (List UInt8)} (h : Requests (ass ++ left) (got ++ asked))
    (hleft : Requests left asked) : Requests ass got := by
  rw [Requests, List.filter_append, hleft, List.map_append] at h
  exact List.append_cancel_right h

theorem Requests.closed (h : Requests ass ([] :: asked)) : Requests ass asked := h

theorem Requests.cons (h : Requests ass (inbuf :: asked)) (hne : inbuf ≠ []) :
    ∃ as left, ass = as :: left ∧ inbuf = as.flatMap Asked.form.write ∧ Requests left asked := by
  rw [Requests, List.filter_cons, if_pos (decide_eq_true hne)] at h
  obtain ⟨as, left, rfl, has, hleft⟩ := List.map_eq_cons_iff.mp h.symm
  exact ⟨as, left, rfl, has.symm, hleft.symm⟩

end Requests

/-- A greeting of version 0, and the end of the connection. -/
theorem letter_requests : Courteous .nobody [[.greeting0 letterName (by decide)]] ∧
    Requests [[.greeting0 letterName (by decide)]] [Asked.form.write (.greeting0 letterName (by decide)), []] := by
  refine ⟨⟨by simp, ?_, Or.inr ?_⟩, ?_⟩
  · simp only [List.mem_singleton, forall_eq]
    exact Or.inr (by decide +kernel : trimmed letterName.val ≤ 20)
  · simp only [List.head?_cons, Option.mem_def, Option.some.injEq, forall_eq', exists_eq_left']
    exact (by decide +kernel : trimmed letterName.val ≤ 20)
  · rw [Requests]
    decide +kernel

end ClassicX
