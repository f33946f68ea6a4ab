import ClassicX.Theorems.Parsing
import ClassicX.Theorems.Senders

/-! The answer to a greeting: what `initseq` gives away is the greeting of the server, the level in chunks and
the spawns, and the chunks are the level. -/

namespace ClassicX

/-! ### Chunks -/

/-- The length of chunk `j` of a level. -/
def Lvl.clen (l : Lvl) (j : ℕ) : Int := min (l.filelen - 1024 * j) MCARRAYLEN

/-- Chunk `j` of a level, in a packet. -/
def Lvl.chunk (curpv : Int) (l : Lvl) (j : ℕ) : List UInt8 :=
  packet curpv .ldata (.cho ⟨some (l.cdat.incr (1024 * j)), l.clen j, l.clen j, 0⟩)

def Lvl.chunks (l : Lvl) : ℕ := ((l.filelen + 1023) / 1024).toNat

/-- The length that a packet of level data declares, as the other side reads it. -/
def declared (p : List UInt8) : Int := (readi fun i => p.getD (i.toNat + 1) 0).toInt

/-- The first bytes of the payload, as many as are declared. -/
def part (p : List UInt8) : List UInt8 := ((p.drop 3).take 1024).take (declared p).toNat

theorem take_add (p : Ptr) (a b : ℕ) : p.take (a + b) = p.take a ++ Ptr.take (p.incr a) b := by
  rw [take_eq, take_eq, take_eq, List.range_add, List.map_append, List.map_map]
  congr 1
  refine List.map_congr_left fun i _ => ?_
  simp only [Function.comp_apply, Fields.Source.incr]
  push_cast
  rw [add_comm]

theorem text_take (p : Ptr) (pad : UInt8) {n size : ℕ} (h : n ≤ size) :
    (Fields.text (some p) n pad size).take n = p.take n := by
  rw [Fields.text_eq_piece_append h fun _ => le_rfl, List.take_append_of_le_length (by simp)]
  exact List.take_of_length_le (by simp)

/-- A packet of level data declares its length, and its payload starts with the chunk. -/
theorem part_chunk {v : Int} {l : Lvl} {j : ℕ} (h : 0 ≤ l.clen j) :
    part (l.chunk v j) = Ptr.take (l.cdat.incr (1024 * j)) (l.clen j).toNat := by
  obtain ⟨n, hn⟩ := Int.eq_ofNat_of_zero_le h
  have hle : n ≤ 1024 := by
    have : l.clen j ≤ 1024 := min_le_right _ _
    omega
  have hmin : min (n : Int) MCARRAYLEN = n := min_eq_left (by simpa [MCARRAYLEN] using hle)
  have hchunk : l.chunk v j = 3 :: (writei (Int16.ofInt n) ++
      (Fields.text (some (l.cdat.incr (1024 * j))) n 0 1024 ++ writeb 0)) := by
    rw [Lvl.chunk, packet_eq (by simp), encode, hn]
    simp only [layout, hmin]
    rfl
  have hdecl : declared (l.chunk v j) = n := by
    have hread : (readi fun i => (l.chunk v j).getD (i.toNat + 1) 0) = Int16.ofInt n := by
      refine readi_writei fun i hi => ?_
      rw [hchunk]
      simp only [Int.toNat_natCast, List.getD_eq_getElem?_getD, List.getElem?_cons_succ]
      rw [List.getElem?_append_left hi, List.getElem?_eq_getElem hi, Option.getD_some]
    rw [declared, hread]
    exact Int16.toInt_ofInt_of_le (by omega) (by omega)
  rw [part, hdecl, hchunk, hn, Int.toNat_natCast]
  have hdrop : (3 :: (writei (Int16.ofInt n) ++ (Fields.text (some (l.cdat.incr (1024 * j))) n 0 1024 ++ writeb 0))).drop 3 =
      Fields.text (some (l.cdat.incr (1024 * j))) n 0 1024 ++ writeb 0 := by simp [writei]
  rw [hdrop, List.take_left' (Fields.length_text _ _ _ _), text_take _ _ hle]

/-- The parts of the chunks from `j` on are the level from there on. -/
theorem flatMap_part {v : Int} {l : Lvl} {m j : ℕ} (hlo : 1024 * (j + m : Int) < l.filelen + 1024)
    (hhi : l.filelen ≤ 1024 * (j + m)) (hj : 1024 * (j : Int) ≤ l.filelen) :
    ((List.range' j m).map (l.chunk v)).flatMap part = Ptr.take (l.cdat.incr (1024 * j)) (l.filelen - 1024 * j).toNat := by
  induction m generalizing j with
  | zero =>
    have : (l.filelen - 1024 * j).toNat = 0 := by omega
    rw [this]
    rfl
  | succ m ih =>
    have hpos : 1024 * (j : Int) < l.filelen := by push_cast at hlo; omega
    have hclen : 0 ≤ l.clen j ∧ l.clen j = min (l.filelen - 1024 * j) 1024 := by
      rw [Lvl.clen, MCARRAYLEN]
      omega
    rw [List.range'_succ, List.map_cons, List.flatMap_cons, part_chunk hclen.1]
    rcases m with _ | m
    · have : l.clen j = l.filelen - 1024 * j := by push_cast at hhi; omega
      rw [this]
      simp
    · have hfull : l.clen j = 1024 := by push_cast at hlo; omega
      rw [ih (by push_cast at hlo ⊢; omega) (by push_cast at hhi ⊢; omega) (by push_cast at hlo ⊢; omega), hfull]
      have hsplit : (l.filelen - 1024 * j).toNat = 1024 + (l.filelen - 1024 * (j + 1 : ℕ)).toNat := by
        push_cast at hlo ⊢
        omega
      rw [hsplit, take_add]
      congr 2
      funext i
      simp only [Fields.Source.incr]
      congr 1
      push_cast
      omega

/-! ### The loop over the level -/

theorem mins_eq (z y : Int) : mins z y = min z y := by
  rw [mins]
  split <;> omega

theorem loop_gives {v : Int} {l : Lvl} {k m j : ℕ} {w : World} (ret : Int) (hv : w.z.session.curpv = v) (hl : w.z.lcur = l)
    (hidle : w.z.session.Idle) (hbig : l.filelen ≤ 32767) (hlo : m = 0 ∨ 1024 * (j + m : Int) < l.filelen + 1024)
    (hhi : l.filelen ≤ 1024 * (j + m)) (hk : m < k) :
    ∃ w', initseq.loop k w (1024 * j) ret = some (ret, w') ∧ Puts w ((List.range' j m).map (l.chunk v)).flatten w' := by
  induction k generalizing m j w with
  | zero => omega
  | succ k ih =>
    rcases m with _ | m
    · rw [initseq.loop, hl, if_neg (by push_cast at hhi; omega)]
      exact ⟨w, rfl, .refl hidle⟩
    · replace hlo := hlo.resolve_left (by omega)
      have hpos : 1024 * (j : Int) < l.filelen := by push_cast at hlo; omega
      have hrem : (Int16.ofInt (l.filelen - 1024 * j)).toInt = l.filelen - 1024 * j :=
        Int16.toInt_ofInt_of_le (by omega) (by omega)
      have hclen : 0 ≤ l.clen j := by
        rw [Lvl.clen, MCARRAYLEN]
        omega
      have hmins : mins (l.filelen - 1024 * j) MCARRAYLEN = l.clen j := mins_eq _ _
      have hnext : 1024 * (j : Int) + MCARRAYLEN = 1024 * (j + 1 : ℕ) := by
        rw [MCARRAYLEN]
        push_cast
        omega
      push_cast at hlo hhi
      obtain ⟨w₁, hdata, hp⟩ := selvldata_gives (l.cdat.incr (1024 * j)) 0 hidle hclen
      obtain ⟨w₂, hloop, hp'⟩ := ih (m := m) (j := j + 1) (hp.curpv.trans hv) (hp.lcur.trans hl) hp.idle
        (by push_cast; omega) (by push_cast; omega) (by omega)
      refine ⟨w₂, ?_, ?_⟩
      · rw [initseq.loop, hl, if_pos hpos]
        simp only [hrem, hmins, hdata, hnext, Option.bind_eq_bind, Option.bind_some, ne_eq, not_true_eq_false, if_false]
        exact hloop
      · rw [List.range'_succ, List.map_cons, List.flatten_cons]
        exact (hv ▸ hp).trans hp'

/-! ### The transcript -/

/-- Where the player starts: the y of a player's own spawn is 20 lower. -/
def spawnPlayer : Mcent := ⟨⟨-1, ⟨512, 492, 512⟩, ⟨224, 64⟩⟩, 3, some (cchr "You")⟩

/-- The clone looks the other way. -/
def spawnClone : Mcent := ⟨⟨0, ⟨512, 512, 512⟩, ⟨96, 64⟩⟩, 5, some (cchr "&8You")⟩

/-- The packets that answer a greeting. -/
def transcript (v : Int) (l : Lvl) : List (List UInt8) :=
  [packet v .pgreeting (.gto (segreeting.grt v)), packet v .lnew .null] ++ (List.range l.chunks).map (l.chunk v) ++
    [packet v .ldim (.vec l.dim), packet v .enew (.eno spawnPlayer), packet v .enew (.eno spawnClone),
      packet v .ping .null]

def World.joined (w : World) : World := { w with ctr := 0, z := { w.z with flg := 1 } }

theorem transcript_packets (v : Int) (l : Lvl) : ∀ p ∈ transcript v l, p ∈ packets v := by
  intro p hp
  simp only [transcript, List.mem_append, List.mem_cons, List.not_mem_nil, or_false, List.mem_map] at hp
  rcases hp with ((rfl | rfl) | ⟨j, -, rfl⟩) | rfl | rfl | rfl | rfl <;> exact packet_mem trivial (by simp)

theorem initseq_gives {w : World} (hidle : w.z.session.Idle) (henam : w.z.cent.enam ≠ none)
    (hlen : w.z.lcur.filelen ≤ 32767) :
    Gives w.joined (initseq w) (transcript w.z.session.curpv w.z.lcur).flatten := by
  generalize hl : w.z.lcur = l at hlen ⊢
  generalize hv : w.z.session.curpv = v
  have hchunks : (l.chunks : Int) = max 0 ((l.filelen + 1023) / 1024) := by
    rw [Lvl.chunks]
    omega
  have hwarn : Platform.warn (w.withFlg 1).z.cent.enam = some () := by
    cases h : (w.withFlg 1).z.cent.enam with
    | none => exact absurd h henam
    | some p => rfl
  obtain ⟨w₁, h₁, hp₁⟩ := segreeting_gives (w := w.withFlg 1) hidle
  have hp₁ : Puts w.joined (packet v .pgreeting (.gto (segreeting.grt v))) (w₁.withCtr 0) := hv ▸ hp₁.withCtr 0
  have hv₁ : (w₁.withCtr 0).z.session.curpv = v := hp₁.curpv.trans hv
  obtain ⟨w₂, h₂, hp₂⟩ := segeneric_gives .lnew .null hp₁.idle trivial
  rw [hv₁] at hp₂
  have hv₂ := hp₂.curpv.trans hv₁
  have hl₂ : w₂.z.lcur = l := (hp₂.lcur.trans hp₁.lcur).trans hl
  obtain ⟨w₃, h₃, hp₃⟩ := loop_gives (k := (l.filelen / MCARRAYLEN).toNat + 2) (m := l.chunks) (j := 0)
    0 hv₂ hl₂ hp₂.idle hlen (by push_cast; omega) (by push_cast; omega)
    (by rw [MCARRAYLEN]; omega)
  have hv₃ := hp₃.curpv.trans hv₂
  have hl₃ := hp₃.lcur.trans hl₂
  obtain ⟨w₄, h₄, hp₄⟩ := segeneric_gives .ldim (.vec l.dim) hp₃.idle trivial
  rw [hv₃] at hp₄
  have hv₄ := hp₄.curpv.trans hv₃
  obtain ⟨w₅, h₅, hp₅⟩ := senewactr_gives (e := { initseq.spwn with eno := -1, enam := some (cchr "You"), enln := 3 })
    hp₄.idle fun _ => by decide
  rw [hv₄] at hp₅
  have hv₅ := hp₅.curpv.trans hv₄
  obtain ⟨w₆, h₆, hp₆⟩ := senewactr_gives (e := spawnClone) hp₅.idle fun _ => by decide
  rw [hv₅] at hp₆
  have hv₆ := hp₆.curpv.trans hv₅
  obtain ⟨w₇, h₇, hp₇⟩ := segeneric_gives .ping .null hp₆.idle trivial
  rw [hv₆] at hp₇
  refine ⟨w₇, ?_, ?_⟩
  · have h₃ : initseq.loop ((l.filelen / MCARRAYLEN).toNat + 2) w₂ 0 0 = some (0, w₃) := by simpa using h₃
    have h₆ : senewactr w₅ ⟨⟨0, initseq.spwn.epos, ⟨initseq.spwn.head.yaw ^^^ 128, initseq.spwn.head.phi⟩⟩, 5,
        some (cchr "&8You")⟩ = some (0, w₆) := h₆
    simp only [initseq, hwarn, h₁, senewlvl, h₂, hl₂, Option.bind_eq_bind, Option.bind_some, ne_eq, not_true_eq_false,
      or_self, if_false, h₃, hl₃, selvlsize, h₄, h₅, h₆, seping, h₇]
  · have hflat : (transcript v l).flatten = packet v .pgreeting (.gto (segreeting.grt v)) ++ packet v .lnew .null ++
        ((List.range' 0 l.chunks).map (l.chunk v)).flatten ++ packet v .ldim (.vec l.dim) ++
        packet v .enew (.eno spawnPlayer) ++ packet v .enew (.eno spawnClone) ++ packet v .ping .null := by
      simp [transcript, List.range_eq_range']
    rw [hflat]
    exact (((((hp₁.trans hp₂).trans hp₃).trans hp₄).trans hp₅).trans hp₆).trans hp₇

/-- What `initseq` gives away is the transcript and parses as nothing else, and the parts that its chunks declare
    are the level. Its callers are past a name. -/
theorem initseq_transcript (w : World) (hidle : w.z.session.Idle) (henam : w.z.cent.enam ≠ none)
    (hlen : 0 ≤ w.z.lcur.filelen ∧ w.z.lcur.filelen ≤ 32767) :
    ∃ w' bs, initseq w = some (0, w') ∧ w'.stdout = w.stdout ++ bs ∧
      (∀ ps, (∀ p ∈ ps, p ∈ packets w.z.session.curpv) ∧ ps.flatten = bs ↔ ps = transcript w.z.session.curpv w.z.lcur) ∧
      (w.z.lcur.chunks : Int) = (w.z.lcur.filelen + 1023) / 1024 ∧
      (∀ j, (w.z.lcur.chunk w.z.session.curpv j).length = 1028) ∧
      ((List.range w.z.lcur.chunks).map (w.z.lcur.chunk w.z.session.curpv)).flatMap part =
        w.z.lcur.cdat.take w.z.lcur.filelen.toNat := by
  obtain ⟨w', hrun, hp⟩ := initseq_gives hidle henam hlen.2
  have hchunks : (w.z.lcur.chunks : Int) = (w.z.lcur.filelen + 1023) / 1024 := by
    rw [Lvl.chunks]
    omega
  refine ⟨w', _, hrun, hp.out, fun ps => ⟨fun ⟨hps, hflat⟩ => ?_, ?_⟩, hchunks, fun j => ?_, ?_⟩
  · exact Code.words_uniquelyDecodable _ _ _ hps (transcript_packets _ _) hflat
  · rintro rfl
    exact ⟨transcript_packets _ _, rfl⟩
  · rw [Lvl.chunk, packet_eq (by simp)]
    simp [encode, layout]
  · have h := flatMap_part (v := w.z.session.curpv) (l := w.z.lcur) (m := w.z.lcur.chunks) (j := 0)
      (by rw [hchunks]; push_cast; omega) (by rw [hchunks]; push_cast; omega) (by push_cast; omega)
    rw [List.range_eq_range', h]
    simp

/-- A level of 1025 bytes is sent in two chunks. -/
theorem initseq_transcript_two : ∃ w : World, w.z.lcur.chunks = 2 ∧ ∃ w' bs, initseq w = some (0, w') ∧
    w'.stdout = w.stdout ++ bs ∧
    ∀ ps, (∀ p ∈ ps, p ∈ packets w.z.session.curpv) ∧ ps.flatten = bs ↔ ps = transcript w.z.session.curpv w.z.lcur := by
  obtain ⟨w', bs, hrun, hout, hparse, -⟩ := initseq_transcript
    { z := { session := fresh 7, cent := { enam := some fun _ => 0 }, lcur := ⟨fun _ => 0, 1025, {}⟩ }, stdin := ⟨[], false⟩ }
    ⟨rfl, rfl⟩ (by simp) (by decide)
  exact ⟨_, rfl, w', bs, hrun, hout, hparse⟩

end ClassicX
