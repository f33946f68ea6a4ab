import Mathlib.Tactic.SplitIfs
import ClassicX.Mccp.Packet

/-! What is sent is a sequence of packets in one way only: the number of a packet tells its length. -/

namespace ClassicX
open Fields (Item)

@[simp] theorem flat_fixed (bs : List UInt8) : (Item.fixed bs).flat = bs := rfl

@[simp] theorem length_writeb (b : Int8) : (writeb b).length = 1 := rfl

@[simp] theorem length_writeu (u : UInt8) : (writeu u).length = 1 := rfl

@[simp] theorem length_writei (i : Int16) : (writei i).length = 2 := rfl

@[simp] theorem length_write2u (h : Mchead) : (write2u h).length = 2 := rfl

@[simp] theorem length_writevec (v : Mcvec) : (writevec v).length = 6 := rfl

@[simp] theorem length_write3d (v : Mcvec) : (write3d v).length = 3 := rfl

@[simp] theorem length_strField (p : Option Ptr) (len : Int) : (strField p len).flat.length = 64 := by
  simp [strField, Item.flat, MCSTRLEN]

@[simp] theorem length_arrField (p : Option Ptr) (len : Int) : (arrField p len).flat.length = 1024 := by
  simp [arrField, Item.flat, MCARRAYLEN]

theorem packet_eq {v : Int} {e : Mcsevt} {src : Src} (h : .edied = e → 0 ≠ v) : packet v e src = encode v e src :=
  if_neg fun ⟨he, hv⟩ => h he hv

theorem mem_packets {v : Int} (num : UInt8) {bs : List UInt8} (h : packetLen v num = some (bs.length + 1)) :
    num :: bs ∈ packets v :=
  ⟨num, rfl, h⟩

theorem encode_length_le (v : Int) (e : Mcsevt) (src : Src) : (encode v e src).length ≤ 1028 := by
  rw [encode, List.length_append, length_writeb]
  cases e <;> cases src <;> simp only [layout, List.drop_nil, Fields.flat_nil, List.length_nil] <;> try omega
  case pgreeting.gto g =>
    by_cases h₀ : 0 = v <;> by_cases h₃ : 3 > v <;> by_cases h₆ : 6 > v <;> simp [h₀, h₃, h₆]
  all_goals simp

/-- What the server sends is a packet, unless it is a difference at version 0, where its number is that of
    a death. -/
theorem packet_mem {v : Int} {e : Mcsevt} {src : Src} (h : e.Casts src) (hdiff : e = .ediff → 0 ≠ v) :
    packet v e src ∈ packets v := by
  by_cases hdied : e = .edied ∧ 0 = v
  · obtain ⟨rfl, rfl⟩ := hdied
    cases src <;> first | exact h.elim | exact mem_packets 9 rfl
  rw [packet_eq fun he hv => hdied ⟨he.symm, hv⟩]
  cases e <;> cases src <;> first | exact h.elim | skip
  case pgreeting.gto g =>
    refine mem_packets 0 ?_
    by_cases h₀ : 0 = v
    · subst h₀
      simp [packetLen, layout]
    · by_cases h₃ : 3 > v
      · simp [packetLen, layout, h₀, h₃]
      · by_cases h₆ : 6 > v <;> simp [packetLen, layout, h₀, h₃, h₆]
  case ldata.cho => exact mem_packets 3 (by simp [packetLen, layout])
  case ldim.vec => exact mem_packets 4 rfl
  case bupdate.bup => exact mem_packets 6 rfl
  case enew.eno => exact mem_packets 7 (by simp [packetLen, layout])
  case estate.eup => exact mem_packets 8 rfl
  case ediff.eup => exact mem_packets 9 (congrArg some (if_neg (hdiff rfl)))
  case eslide.eup => exact mem_packets 10 rfl
  case ehead.eup => exact mem_packets 11 rfl
  case edied.eid => exact mem_packets 12 rfl
  case cmsg.mso => exact mem_packets 13 (by simp [packetLen, layout])
  case pbye.mso => exact mem_packets 14 (by simp [packetLen, layout])
  case cflags.cfg => exact mem_packets 15 rfl
  -- The packets without a payload.
  all_goals first | exact mem_packets 1 rfl | exact mem_packets 2 rfl

end ClassicX
