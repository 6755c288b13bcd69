import OspreyBlake2b.Lib.Blocks
import OspreyBlake2b.Rtl.HeldWork
import OspreyBlake2b.Rtl.UartReceiverLaws
import Mathlib.Data.PNat.Basic

namespace OspreyBlake2b.Rtl.Uart

open OspreyBlake2b.Lib OspreyBlake2b.Lib.Clocked OspreyBlake2b.Lib.Blocks

/-- The bytes of the items in a row, and idle times that the receiver can do with. -/
structure Sends (g : Generics) (items : List (List Byte)) (frames : List (Nat × Byte)) : Prop where
  sizes : ∀ b ∈ items, b.length = g.kRxBytes
  bytes : frames.map Prod.snd = items.flatten
  gaps : ClearGaps g.kBitTimeInClks frames
  slow : 32 ≤ g.kBitTimeInClks

def itemClk (g : Generics) (frames : List (Nat × Byte)) (j : Nat) : Nat :=
  pulseClk g.kBitTimeInClks frames (g.kRxBytes * j + (g.kRxBytes - 1))

/-- Of `m` items, item `j` is the last one whose last byte was in `lag + 1` clocks before `b`. -/
def Current (g : Generics) (frames : List (Nat × Byte)) (m lag j b : Nat) : Prop :=
  ∀ j' < m, j < j' → b ≤ itemClk g frames j' + lag + 1

variable {g : Generics} {items : List (List Byte)} {frames : List (Nat × Byte)}

theorem Sends.length (h : Sends g items frames) : frames.length = g.kRxBytes * items.length := by
  rw [← List.length_map Prod.snd, h.bytes, length_flatten h.sizes]

theorem Sends.item (h : Sends g items frames) (j : Nat) (hj : j < items.length) :
    ((frames.map Prod.snd).drop (g.kRxBytes * j)).take g.kRxBytes = items[j] := by
  rw [h.bytes, drop_flatten h.sizes, List.drop_eq_getElem_cons hj, List.flatten_cons]
  exact List.take_left' (h.sizes _ (List.getElem_mem hj))

theorem itemClk_lt (g : Generics) (frames : List (Nat × Byte)) {i j : Nat} (h : i < j) :
    itemClk g frames i < itemClk g frames j := by
  apply pulseClk_lt frames g.kBitTimeInClks_pos
  have hmul := Nat.mul_lt_mul_of_pos_left h g.kRxBytes_pos
  omega

theorem packet_end_iff {R P i : Nat} (hR : 0 < R) :
    (P + i + 1) % R = 0 ↔ ∃ j, i = R * j + (R - 1 - P % R) := by
  have hmod := Nat.mod_lt P hR
  have hP := Nat.div_add_mod P R
  constructor
  · intro hend
    obtain ⟨q, hq⟩ := Nat.dvd_of_mod_eq_zero hend
    have hle : P / R + 1 ≤ q := by
      apply Nat.lt_of_mul_lt_mul_left (a := R)
      omega
    obtain ⟨j, rfl⟩ := Nat.exists_eq_add_of_le hle
    refine ⟨j, ?_⟩
    rw [Nat.mul_add, Nat.mul_succ] at hq
    omega
  · rintro ⟨j, rfl⟩
    have hend : P + (R * j + (R - 1 - P % R)) + 1 = R * (P / R + j + 1) := by
      rw [Nat.mul_succ, Nat.mul_add]
      omega
    rw [hend, Nat.mul_mod_right]

theorem last_byte_iff {R i m : Nat} (hR : 0 < R) (hi : i < R * m) :
    (0 + i + 1) % R = 0 ↔ ∃ j < m, i = R * j + (R - 1) := by
  rw [packet_end_iff hR, Nat.zero_mod, Nat.sub_zero]
  constructor
  · rintro ⟨j, hj⟩
    exact ⟨j, Nat.lt_of_mul_lt_mul_left (Nat.lt_of_le_of_lt (hj ▸ Nat.le_add_right _ _) hi), hj⟩
  · rintro ⟨j, -, hj⟩
    exact ⟨j, hj⟩

theorem last_byte_lt {R j m : Nat} (hR : 0 < R) (hj : j < m) : R * j + (R - 1) < R * m := by
  have hmul := Nat.mul_le_mul_left R (Nat.succ_le_of_lt hj)
  rw [Nat.mul_succ] at hmul
  omega

theorem pulseClk_inj {K i j : Nat} (hK : 0 < K)
    (h : pulseClk K frames i = pulseClk K frames j) : i = j := by
  obtain hlt | heq | hgt := Nat.lt_trichotomy i j
  · exact absurd h (pulseClk_lt frames hK hlt).ne
  · exact heq
  · exact absurd h (pulseClk_lt frames hK hgt).ne'

/-- The last bytes of a packet's length are what the word holds, aligned or not; the
pulse comes when they are. -/
theorem window_run {σ : Nat → GetWork g} {c N a : Nat} {w : BitVec (g.kRxBytes * 8)}
    (hK : 32 ≤ g.kBitTimeInClks)
    (hσ : Trace (GetWork.step g) (line g.kBitTimeInClks frames) σ)
    (hq : Quiet (σ 0) c (N % g.kRxBytes) w) (hc : c ≤ g.kBitTimeInClks)
    (hclear : ClearFrom g.kBitTimeInClks c frames) (ha : a + g.kRxBytes ≤ frames.length) :
    ((σ (pulseClk g.kBitTimeInClks frames (a + (g.kRxBytes - 1)))).NewWork = true ↔
        (N + a) % g.kRxBytes = 0) ∧
      (σ (pulseClk g.kBitTimeInClks frames (a + (g.kRxBytes - 1)))).WorkData =
        leWord (g.kRxBytes * 8) (((frames.map Prod.snd).drop a).take g.kRxBytes) := by
  have hR := g.kRxBytes_pos
  have hlast : a + (g.kRxBytes - 1) < frames.length := by omega
  obtain ⟨hnew, hdata⟩ := frames_run hK frames hσ hq hc hclear
  constructor
  · rw [hnew _ (pulseClk_pos frames _)]
    have hend : N + (a + (g.kRxBytes - 1)) + 1 = N + a + g.kRxBytes := by omega
    constructor
    · rintro ⟨i, -, hm, he⟩
      rw [← pulseClk_inj g.kBitTimeInClks_pos he, hend, Nat.add_mod_right] at hm
      exact hm
    · intro hm
      exact ⟨_, hlast, by rwa [hend, Nat.add_mod_right], rfl⟩
  · have hword := hdata _ hlast
    have hend : a + (g.kRxBytes - 1) + 1 = a + g.kRxBytes := by omega
    rw [hend] at hword
    have htake : (frames.take (a + g.kRxBytes)).length = a + g.kRxBytes := by
      rw [List.length_take]
      omega
    have hbytes := leBytes_shifted (frames.take (a + g.kRxBytes)) w (by omega)
    rw [htake, Nat.add_sub_cancel, List.map_take, ← hword, ← List.take_drop] at hbytes
    rw [← hbytes]
    exact (leWord_leBytes_of_width (Nat.mul_comm _ _) _).symm

theorem pulseClk_le {K i j : Nat} (hK : 0 < K) :
    pulseClk K frames i ≤ pulseClk K frames j ↔ i ≤ j := by
  constructor
  · intro hle
    by_contra hlt
    exact absurd hle (Nat.not_le.mpr (pulseClk_lt frames hK (Nat.lt_of_not_le hlt)))
  · intro hle
    obtain rfl | hlt := Nat.eq_or_lt_of_le hle
    · exact Nat.le_refl _
    · exact (pulseClk_lt frames hK hlt).le

def packetClk (g : Generics) (frames : List (Nat × Byte)) (start m j : Nat) : Nat :=
  pulseClk g.kBitTimeInClks frames (start + (g.kRxBytes * j + (g.kRxBytes - 1 - m)))

section Packets

variable {σ : Nat → GetWork g} {c N : Nat} {w : BitVec (g.kRxBytes * 8)} {before : List Byte}

theorem length_of_line (hsizes : ∀ b ∈ items, b.length = g.kRxBytes)
    (hline : frames.map Prod.snd = before ++ items.flatten) :
    frames.length = before.length + g.kRxBytes * items.length := by
  rw [← List.length_map Prod.snd, hline, List.length_append, length_flatten hsizes]

theorem packet_pulses (hK : 32 ≤ g.kBitTimeInClks)
    (hσ : Trace (GetWork.step g) (line g.kBitTimeInClks frames) σ)
    (hq : Quiet (σ 0) c (N % g.kRxBytes) w) (hc : c ≤ g.kBitTimeInClks)
    (hclear : ClearFrom g.kBitTimeInClks c frames)
    (hsizes : ∀ b ∈ items, b.length = g.kRxBytes)
    (hline : frames.map Prod.snd = before ++ items.flatten) {t : Nat}
    (ht : pulseClk g.kBitTimeInClks frames before.length ≤ t) :
    (σ t).NewWork = true ↔ ∃ j < items.length,
      t = packetClk g frames before.length ((N + before.length) % g.kRxBytes) j := by
  have hR := g.kRxBytes_pos
  have hlen := length_of_line hsizes hline
  obtain ⟨hnew, -⟩ := frames_run hK frames hσ hq hc hclear
  rw [hnew t (Nat.lt_of_lt_of_le (pulseClk_pos frames _) ht)]
  constructor
  · rintro ⟨i, hi, hend, rfl⟩
    obtain ⟨d, rfl⟩ := Nat.exists_eq_add_of_le ((pulseClk_le g.kBitTimeInClks_pos).mp ht)
    rw [← Nat.add_assoc N] at hend
    obtain ⟨j, rfl⟩ := (packet_end_iff hR).mp hend
    refine ⟨j, ?_, rfl⟩
    apply Nat.lt_of_mul_lt_mul_left (a := g.kRxBytes)
    omega
  · rintro ⟨j, hj, rfl⟩
    refine ⟨_, ?_, ?_, rfl⟩
    · have hlast := last_byte_lt hR hj
      omega
    · rw [← Nat.add_assoc N]
      exact (packet_end_iff hR).mpr ⟨j, rfl⟩

theorem drop_item {j : Nat} {b : List Byte} (hsizes : ∀ b ∈ items, b.length = g.kRxBytes)
    (hline : frames.map Prod.snd = before ++ items.flatten) (hb : items[j]? = some b) :
    (frames.map Prod.snd).drop (before.length + g.kRxBytes * j) =
      b ++ (items.drop (j + 1)).flatten := by
  obtain ⟨hj, rfl⟩ := List.getElem?_eq_some_iff.mp hb
  rw [hline, ← List.drop_drop, List.drop_left, drop_flatten hsizes, List.drop_eq_getElem_cons hj,
    List.flatten_cons]

theorem packet_aligned (hK : 32 ≤ g.kBitTimeInClks)
    (hσ : Trace (GetWork.step g) (line g.kBitTimeInClks frames) σ)
    (hq : Quiet (σ 0) c (N % g.kRxBytes) w) (hc : c ≤ g.kBitTimeInClks)
    (hclear : ClearFrom g.kBitTimeInClks c frames)
    (hsizes : ∀ b ∈ items, b.length = g.kRxBytes)
    (hline : frames.map Prod.snd = before ++ items.flatten) {j : Nat} {b : List Byte}
    (hb : items[j]? = some b) :
    (σ (packetClk g frames before.length 0 j)).WorkData = leWord (g.kRxBytes * 8) b := by
  obtain ⟨hj, hmem⟩ := List.getElem?_eq_some_iff.mp hb
  have hsize : b.length = g.kRxBytes := hsizes b (hmem ▸ List.getElem_mem hj)
  have hlast := last_byte_lt g.kRxBytes_pos hj
  have hlen := length_of_line hsizes hline
  have hwin := window_run (a := before.length + g.kRxBytes * j) hK hσ hq hc hclear (by omega)
  rw [drop_item hsizes hline hb, List.take_left' hsize, Nat.add_assoc] at hwin
  exact hwin.2

/-- One that is `m` bytes ahead takes the last `m` of one item with the first of the next. -/
theorem packet_rotated {m j : Nat} {b b' : List Byte} (hK : 32 ≤ g.kBitTimeInClks)
    (hσ : Trace (GetWork.step g) (line g.kBitTimeInClks frames) σ)
    (hq : Quiet (σ 0) c (N % g.kRxBytes) w) (hc : c ≤ g.kBitTimeInClks)
    (hclear : ClearFrom g.kBitTimeInClks c frames)
    (hsizes : ∀ b ∈ items, b.length = g.kRxBytes)
    (hline : frames.map Prod.snd = before ++ items.flatten) (hm : m < g.kRxBytes)
    (hb : items[j]? = some b) (hb' : items[j + 1]? = some b') :
    (σ (packetClk g frames before.length m (j + 1))).WorkData =
      leWord (g.kRxBytes * 8) (b.drop (g.kRxBytes - m) ++ b'.take (g.kRxBytes - m)) := by
  obtain ⟨hj, hmem⟩ := List.getElem?_eq_some_iff.mp hb
  obtain ⟨hj', hmem'⟩ := List.getElem?_eq_some_iff.mp hb'
  have hsize : b.length = g.kRxBytes := hsizes b (hmem ▸ List.getElem_mem hj)
  have hsize' : b'.length = g.kRxBytes := hsizes b' (hmem' ▸ List.getElem_mem hj')
  have hlen := length_of_line hsizes hline
  have hlast := last_byte_lt g.kRxBytes_pos hj'
  have hsucc : g.kRxBytes * (j + 1) = g.kRxBytes * j + g.kRxBytes := Nat.mul_succ _ _
  have hbytes : ((frames.map Prod.snd).drop
      (before.length + g.kRxBytes * j + (g.kRxBytes - m))).take g.kRxBytes =
        b.drop (g.kRxBytes - m) ++ b'.take (g.kRxBytes - m) := by
    rw [← List.drop_drop, drop_item hsizes hline hb, List.drop_append_of_le_length (by omega),
      List.drop_eq_getElem_cons hj', hmem', List.flatten_cons, List.take_append,
      List.take_of_length_le (by simp; omega), List.length_drop, hsize,
      List.take_append_of_le_length (by omega)]
    congr 2
    omega
  have hwin := window_run (a := before.length + g.kRxBytes * j + (g.kRxBytes - m)) hK hσ hq hc
    hclear (by omega)
  rw [hbytes] at hwin
  have hclk : before.length + g.kRxBytes * j + (g.kRxBytes - m) + (g.kRxBytes - 1) =
      before.length + (g.kRxBytes * (j + 1) + (g.kRxBytes - 1 - m)) := by omega
  rw [hclk] at hwin
  exact hwin.2

end Packets

theorem Sends.pulses (h : Sends g items frames) {σ : Nat → GetWork g}
    (hσ : Trace (GetWork.step g) (line g.kBitTimeInClks frames) σ)
    (h0 : σ 0 = GetWork.reset g) :
    (∀ t, (σ t).NewWork = true ↔ ∃ j < items.length, t = itemClk g frames j) ∧
      ∀ (j : Nat) (hj : j < items.length),
        (σ (itemClk g frames j)).WorkData = leWord (g.kRxBytes * 8) items[j] := by
  have hR := g.kRxBytes_pos
  have hlen := h.length
  have hq : Quiet (σ 0) 0 (0 % g.kRxBytes) 0 := h0 ▸ reset_quiet g
  have hclear := h.gaps.clearFrom h.slow
  obtain ⟨hnew, -⟩ := frames_run h.slow frames hσ hq (Nat.zero_le _) hclear
  constructor
  · intro t
    cases t with
    | zero =>
      have hlow : (σ 0).NewWork = false := by rw [h0]; rfl
      rw [hlow]
      constructor
      · exact nofun
      · rintro ⟨j, -, hj⟩
        exact absurd hj (pulseClk_pos frames _).ne
    | succ t =>
      rw [hnew (t + 1) (Nat.succ_pos t), hlen]
      constructor
      · rintro ⟨i, hi, hm, ht⟩
        obtain ⟨j, hj, rfl⟩ := (last_byte_iff hR hi).mp hm
        exact ⟨j, hj, ht⟩
      · rintro ⟨j, hj, ht⟩
        have hi := last_byte_lt hR hj
        exact ⟨_, hi, (last_byte_iff hR hi).mpr ⟨j, hj, rfl⟩, ht⟩
  · intro j hj
    have hi := last_byte_lt hR hj
    have hwin := window_run (a := g.kRxBytes * j) h.slow hσ hq (Nat.zero_le _) hclear (by omega)
    rw [itemClk, hwin.2, h.item j hj]

theorem Sends.works (h : Sends g items frames) {σ : Nat → GetWork g}
    (hσ : Trace (GetWork.step g) (line g.kBitTimeInClks frames) σ)
    (h0 : σ 0 = GetWork.reset g) {lag j b : Nat} (hj : j < items.length)
    (hb : Current g frames items.length lag j b) :
    Works (fun t => (σ t).NewWork) lag (itemClk g frames j) b := by
  obtain ⟨hnew, -⟩ := h.pulses hσ h0
  constructor
  · exact (hnew _).mpr ⟨j, hj, rfl⟩
  · intro u hu hub
    rw [← Bool.not_eq_true, hnew u]
    rintro ⟨j', hj', rfl⟩
    obtain hle | hlt := Nat.lt_or_ge j j' |>.symm
    · obtain rfl | hless := Nat.eq_or_lt_of_le hle
      · exact Nat.lt_irrefl _ hu
      · exact Nat.lt_asymm hu (itemClk_lt g frames hless)
    · have hlate := hb j' hj' hlt
      omega

def demoBit : ℕ+ := Nat.succPNat 31

theorem demoBit_eq : (demoBit : Nat) = 32 := rfl

theorem clearGaps_tight (bs : List Byte) : ClearGaps demoBit (bs.map fun b => (0, b)) := by
  rw [demoBit_eq]
  cases bs with
  | nil => trivial
  | cons b bs => exact ⟨by decide, by simp⟩

end OspreyBlake2b.Rtl.Uart
