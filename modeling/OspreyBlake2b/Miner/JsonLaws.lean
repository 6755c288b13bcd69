import OspreyBlake2b.Miner.Json

namespace OspreyBlake2b.Miner

open OspreyBlake2b.Lib

theorem hexPairs_length (text : List Byte) : (hexPairs text).1.length ≤ text.length / 2 := by
  fun_induction hexPairs text with
  | case1 hi lo text h l hh hl out ok hrest ih =>
    rw [hrest] at ih
    change out.length + 1 ≤ (text.length + 1 + 1) / 2
    change out.length ≤ text.length / 2 at ih
    omega
  | case2 hi lo text hbad => exact Nat.zero_le _
  | case3 text hshort => exact Nat.zero_le _

theorem jsHex_length (v : List Byte) (maxlen : Nat) : (jsHex v maxlen).1.length ≤ maxlen := by
  rw [jsHex]
  obtain ⟨text, ok⟩ := jsStr v (2 * 512 + 4)
  dsimp only
  split_ifs with _ _ hlong
  · exact Nat.zero_le _
  · exact Nat.zero_le _
  · exact Nat.zero_le _
  · exact (hexPairs_length text).trans (Nat.not_lt.mp hlong)

theorem jsStrLoop_spec (v : List Byte) (room : Nat) :
    (jsStrLoop room v).1.length ≤ room - 1 ∧ 0 ∉ (jsStrLoop room v).1 := by
  induction v generalizing room with
  | nil => simp [jsStrLoop]
  | cons c v ih =>
    rw [jsStrLoop]
    split_ifs with hquote hend
    · simp
    · simp
    · obtain ⟨hlen, hnul⟩ := ih (room - 1)
      rw [not_or] at hend
      simp only [List.length_cons, List.mem_cons, not_or]
      exact ⟨by omega, fun h => hend.1 h.symm, hnul⟩

theorem jsStr_spec {v : List Byte} {outlen : Nat} (hroom : 0 < outlen) :
    (jsStr v outlen).1.length < outlen ∧ 0 ∉ (jsStr v outlen).1 := by
  rw [jsStr]
  split
  · simp [hroom]
  · obtain ⟨hlen, hnul⟩ := jsStrLoop_spec ((jsWs v).drop 1) outlen
    exact ⟨by omega, hnul⟩

end OspreyBlake2b.Miner
