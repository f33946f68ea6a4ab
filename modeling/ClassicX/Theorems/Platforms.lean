import ClassicX.Theorems.Driving

/-! What the server does on one platform, it does on another one that does the same and has a result in more cases. -/

namespace ClassicX
open Runs (Run)

/-- `b` has the result of `a`, if there is one. -/
def Covers {α : Type} (a b : Option α) : Prop := ∀ x, a = some x → b = some x

section Covers
variable {α β : Type} {a b : Option α} {f g : α → Option β}

theorem Covers.refl (a : Option α) : Covers a a := fun _ => id

theorem Covers.bind (h : Covers a b) (hk : ∀ x, Covers (f x) (g x)) : Covers (a.bind f) (b.bind g) := by
  intro y hy
  obtain ⟨x, hx, hy⟩ := Option.bind_eq_some_iff.mp hy
  exact Option.bind_eq_some_iff.mpr ⟨x, h x hx, hk x y hy⟩

theorem Covers.ite {c : Prop} [Decidable c] {a' b' : Option α} (h : Covers a b) (h' : Covers a' b') :
    Covers (if c then a else a') (if c then b else b') := by
  split
  · exact h
  · exact h'

end Covers

/-- What is defined on `p` is the same on `q`. -/
structure Platform.Below (p q : Platform) : Prop where
  warn (msg : Option Ptr) : Covers (p.warn msg) (q.warn msg)
  strim : p.strim = q.strim

section Handlers
variable {p q : Platform} (h : p.Below q)
include h

theorem initseq_covers (w : World) : Covers (@initseq p w) (@initseq q w) := (h.warn _).bind fun _ => .refl _

theorem respond_covers (w : World) (nxt : Mcctyp) : Covers (@respond p w nxt) (@respond q w nxt) :=
  (Covers.refl _).ite ((initseq_covers h w).bind fun _ => .refl _)

theorem save_same (w : World) : @ctname.save p w = @ctname.save q w := by
  simp only [ctname.save, h.strim]

theorem ctname_covers (w : World) (qty : Int) : Covers (@ctname p w qty) (@ctname q w qty) := by
  refine (Covers.refl _).bind ?_
  rintro ⟨nxt, w, v⟩
  simp only [save_same h]
  exact (Covers.refl _).ite ((Covers.refl _).ite (respond_covers h _ _))

theorem ctblkch_covers (w : World) (qty : Int) : Covers (@ctblkch p w qty) (@ctblkch q w qty) :=
  (Covers.refl _).bind fun _ => (h.warn _).bind fun _ => .refl _

theorem joined_covers (w : World) (old new : Mceup) : Covers (@ctactrstat.joined p w old new) (@ctactrstat.joined q w old new) :=
  (Covers.refl _).bind fun _ => (Covers.refl _).bind fun _ => (Covers.refl _).bind fun _ =>
    Covers.ite ((initseq_covers h _).bind fun _ => .refl _) (.refl _)

theorem ctactrstat_covers (w : World) (qty : Int) : Covers (@ctactrstat p w qty) (@ctactrstat q w qty) := by
  refine (Covers.refl _).bind fun r => ?_
  by_cases hflg : 0 = r.2.1.z.flg
  · simp only [if_pos hflg]
    exact .refl _
  · simp only [if_neg hflg]
    exact (joined_covers h _ _ _).bind fun _ => .refl _

theorem ctmsg_covers (w : World) (qty : Int) : Covers (@ctmsg p w qty) (@ctmsg q w qty) :=
  (Covers.refl _).bind fun _ => (h.warn _).bind fun _ => .refl _

theorem ctpass_covers (w : World) (qty : Int) : Covers (@ctpass p w qty) (@ctpass q w qty) :=
  (Covers.refl _).bind fun _ => respond_covers h _ _

theorem ctcflg_covers (w : World) (qty : Int) : Covers (@ctcflg p w qty) (@ctcflg q w qty) :=
  (Covers.refl _).bind fun _ => respond_covers h _ _

theorem handler_covers (ct : Mcctyp) (w : World) (qty : Int) :
    Covers ((@handler p ct).bind fun f => f w qty) ((@handler q ct).bind fun f => f w qty) := by
  cases ct with
  | invalid => exact .refl _
  | evtno => exact .refl _
  | version => exact .refl _
  | actrno => exact .refl _
  | name => exact ctname_covers h w qty
  | blkch => exact ctblkch_covers h w qty
  | actrstat => exact ctactrstat_covers h w qty
  | msg => exact ctmsg_covers h w qty
  | pass => exact ctpass_covers h w qty
  | cflgs => exact ctcflg_covers h w qty

theorem cloop_covers (w : World) (ct : Mcctyp) : Covers (@cloop p w ct) (@cloop q w ct) :=
  (Covers.refl _).ite (handler_covers h _ _ _)

/-- A run on the one platform is a run on the other one. -/
theorem run_covers {s₀ s : Mcctyp × World} {l : List Iter} (hrun : Run (@start.loop p) s₀ l s) : Run (@start.loop q) s₀ l s := by
  induction hrun with
  | start => exact .start
  | next t _ hok ih =>
    have hok' : (@start.loop q).Ok t := ⟨hok.1, cloop_covers h _ _ _ hok.2⟩
    exact Run.next (S := @start.loop q) t ih hok'

theorem goes_covers {s s' : Mcctyp × World} {n : ℕ} (hgoes : @Goes p s n s') : @Goes q s n s' := by
  obtain ⟨l, hrun, hlen⟩ := hgoes
  exact ⟨l, run_covers h hrun, hlen⟩

end Handlers

end ClassicX
