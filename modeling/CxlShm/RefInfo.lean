import Mathlib.Data.Nat.Bitwise
import Mathlib.Tactic.Ring

/-!
# The packed reference word

`CXLObj.ref_info` is one 64-bit word with three fields: the id of the last modifier (`lcid`, 16
bits), the reference count (16 bits) and the era of the modification (`lenum`, 32 bits).
`packRefInfo` adds the three fields without masks, so a field that is too large runs into the next
one; the `*_packRefInfo` lemmas say when the fields come back as they were put in.
-/

namespace CxlShm

/-- `pack_ref_info`: the three fields, shifted and added in 64 bits. -/
def packRefInfo (lcid refCnt lenum : ℕ) : ℕ :=
  ((lcid <<< 48) + (refCnt <<< 32) + lenum) % 2 ^ 64

/-- `get_ref_cnt_from_info`. -/
def getRefCntFromInfo (refInfo : ℕ) : ℕ := (refInfo >>> 32) &&& (2 ^ 16 - 1)

/-- `get_lenum_from_info`. -/
def getLenumFromInfo (refInfo : ℕ) : ℕ := refInfo &&& (2 ^ 32 - 1)

/-- `get_lcid_from_info`. -/
def getLcidFromInfo (refInfo : ℕ) : ℕ := (refInfo >>> 48) &&& (2 ^ 16 - 1)

theorem packRefInfo_eq (lcid refCnt lenum : ℕ) :
    packRefInfo lcid refCnt lenum = (lcid * 2 ^ 48 + refCnt * 2 ^ 32 + lenum) % 2 ^ 64 := by
  simp only [packRefInfo, Nat.shiftLeft_eq]

theorem getRefCntFromInfo_eq (w : ℕ) : getRefCntFromInfo w = w / 2 ^ 32 % 2 ^ 16 := by
  rw [getRefCntFromInfo, Nat.and_two_pow_sub_one_eq_mod, Nat.shiftRight_eq_div_pow]

theorem getLenumFromInfo_eq (w : ℕ) : getLenumFromInfo w = w % 2 ^ 32 := by
  rw [getLenumFromInfo, Nat.and_two_pow_sub_one_eq_mod]

theorem getLcidFromInfo_eq (w : ℕ) : getLcidFromInfo w = w / 2 ^ 48 % 2 ^ 16 := by
  rw [getLcidFromInfo, Nat.and_two_pow_sub_one_eq_mod, Nat.shiftRight_eq_div_pow]

theorem getRefCntFromInfo_lt (w : ℕ) : getRefCntFromInfo w < 2 ^ 16 := by
  rw [getRefCntFromInfo_eq]
  exact Nat.mod_lt _ (by norm_num)

theorem getLenumFromInfo_lt (w : ℕ) : getLenumFromInfo w < 2 ^ 32 := by
  rw [getLenumFromInfo_eq]
  exact Nat.mod_lt _ (by norm_num)

/-- The count survives packing whatever the modifier's id is: the id is shifted above it. -/
@[simp] theorem getRefCntFromInfo_packRefInfo {lcid refCnt lenum : ℕ} (hc : refCnt < 2 ^ 16)
    (he : lenum < 2 ^ 32) : getRefCntFromInfo (packRefInfo lcid refCnt lenum) = refCnt := by
  rw [getRefCntFromInfo_eq, packRefInfo_eq]
  omega

@[simp] theorem getLenumFromInfo_packRefInfo {lcid refCnt lenum : ℕ} (he : lenum < 2 ^ 32) :
    getLenumFromInfo (packRefInfo lcid refCnt lenum) = lenum := by
  rw [getLenumFromInfo_eq, packRefInfo_eq]
  omega

@[simp] theorem getLcidFromInfo_packRefInfo {lcid refCnt lenum : ℕ} (hl : lcid < 2 ^ 16)
    (hc : refCnt < 2 ^ 16) (he : lenum < 2 ^ 32) :
    getLcidFromInfo (packRefInfo lcid refCnt lenum) = lcid := by
  rw [getLcidFromInfo_eq, packRefInfo_eq]
  omega

@[simp] theorem getRefCntFromInfo_zero : getRefCntFromInfo 0 = 0 := rfl

end CxlShm
