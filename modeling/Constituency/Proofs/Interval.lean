import Constituency.Interval
import Constituency.Proofs.Checked

/-! # Pieces of an interval

An interval is cut into pieces of the least size that few enough pieces can have. The pieces follow
one another from its start to its end; only where there are too many of them for a list, or where
the end of the last one, were it of full size, does not fit in 64 bits, there is no cut at all.

* `Interval.Tiles`: intervals that follow one another.
* `splitInto_eq_ok`: an interval that is not huge is cut into such intervals.
* `splitInto_tiles`: every interval is, unless its pieces are too many or the end of one overflows. -/

namespace Constituency
set_option autoImplicit false

/-! ## Rounded up quotients -/

theorem le_ceilDiv_mul (n : Nat) {d : Nat} (hd : 0 < d) : n ≤ ceilDiv n d * d := by
  have h := Nat.lt_mul_div_succ (n + d - 1) hd
  unfold ceilDiv
  rw [Nat.mul_add, Nat.mul_one, Nat.mul_comm] at h
  omega

theorem ceilDiv_pos {n d : Nat} (hn : 0 < n) (hd : 0 < d) : 0 < ceilDiv n d := by
  refine Nat.pos_of_ne_zero fun h0 => ?_
  have hle := le_ceilDiv_mul n hd
  rw [h0] at hle
  omega

theorem mul_lt_of_lt_ceilDiv {n d i : Nat} (h : i < ceilDiv n d) : i * d < n := by
  rcases Nat.eq_zero_or_pos d with rfl | hd
  · simp [ceilDiv] at h
  · have hle : (i + 1) * d ≤ n + d - 1 := (Nat.le_div_iff_mul_le hd).1 h
    rw [Nat.add_mul, Nat.one_mul] at hle
    omega

theorem ceilDiv_le_of_le_mul {n d k : Nat} (h : n ≤ k * d) : ceilDiv n d ≤ k := by
  refine Nat.le_of_not_lt fun hlt => ?_
  have := mul_lt_of_lt_ceilDiv hlt
  omega

theorem lt_ceilDiv_iff {n d i : Nat} (hd : 0 < d) : i < ceilDiv n d ↔ i * d < n := by
  refine ⟨mul_lt_of_lt_ceilDiv, fun h => Nat.lt_of_not_le fun hle => ?_⟩
  have hmul : ceilDiv n d * d ≤ i * d := Nat.mul_le_mul_right d hle
  have := le_ceilDiv_mul n hd
  omega

/-- Pieces of the size that `parts` pieces need are at most `parts`. -/
theorem ceilDiv_ceilDiv_le (n : Nat) {parts : Nat} (h : 0 < parts) :
    ceilDiv n (ceilDiv n parts) ≤ parts := by
  apply ceilDiv_le_of_le_mul
  rw [Nat.mul_comm]
  exact le_ceilDiv_mul n h

/-! ## Tilings -/

namespace Interval

/-- The intervals follow one another from `start` to `stop`. -/
def Tiles : Nat → List Interval → Nat → Prop
  | start, [], stop => start = stop
  | start, r :: rest, stop => r.start = start ∧ r.start ≤ r.stop ∧ Tiles r.stop rest stop

theorem Tiles.le {start stop : Nat} {l : List Interval} (h : Tiles start l stop) :
    start ≤ stop := by
  induction l generalizing start with
  | nil => exact Nat.le_of_eq h
  | cons r rest ih =>
    obtain ⟨rfl, hle, hrest⟩ := h
    exact Nat.le_trans hle (ih hrest)

theorem Tiles.stop_le {start stop : Nat} {l : List Interval} (h : Tiles start l stop) {r : Interval}
    (hr : r ∈ l) : r.stop ≤ stop := by
  induction l generalizing start with
  | nil => cases hr
  | cons first rest ih =>
    obtain ⟨-, -, hrest⟩ := h
    rcases List.mem_cons.1 hr with rfl | hr
    · exact hrest.le
    · exact ih hrest hr

theorem Tiles.concat {start stop : Nat} {l : List Interval} {r : Interval}
    (h : Tiles start l r.start) (hle : r.start ≤ r.stop) (hstop : r.stop = stop) : Tiles start (l ++ [r]) stop := by
  induction l generalizing start with
  | nil => exact ⟨h.symm, hle, hstop⟩
  | cons first rest ih => exact ⟨h.1, h.2.1, ih h.2.2⟩

theorem Tiles.eq_nil {start : Nat} {l : List Interval} (h : Tiles start l start)
    (hpos : ∀ r ∈ l, r.start < r.stop) : l = [] := by
  cases l with
  | nil => rfl
  | cons r rest =>
    obtain ⟨rfl, -, hrest⟩ := h
    have hlt := hpos r List.mem_cons_self
    exact absurd hrest.le (Nat.not_le.2 hlt)

end Interval

/-! ## Pieces -/

/-- The piece that starts at `start` if sums may be of any size. -/
def pieceAt (length size start : Nat) : Interval := ⟨start, min (start + size) length⟩

theorem piece_of_lt {length size start : Nat} (h : start + size < 2 ^ 64) :
    piece length size start = .ok (pieceAt length size start) := by
  unfold piece add64
  rw [if_pos h]
  rfl

theorem piece_of_le {length size start : Nat} (h : 2 ^ 64 ≤ start + size) :
    piece length size start = Checked.fault .overflow := by
  unfold piece add64
  rw [if_neg (by omega)]
  rfl

theorem tiles_pieceAt {length size count : Nat} (h : ∀ i < count, i * size < length) :
    Interval.Tiles 0 ((List.range count).map fun i => pieceAt length size (i * size))
      (min (count * size) length) := by
  induction count with
  | zero => simp [Interval.Tiles]
  | succ count ih =>
    have hlt := h count (Nat.lt_succ_self count)
    have hbefore := ih fun i hi => h i (Nat.lt_succ_of_lt hi)
    rw [Nat.min_eq_left (Nat.le_of_lt hlt)] at hbefore
    rw [List.range_succ, List.map_append, List.map_singleton]
    refine hbefore.concat ?_ ?_
    · simp only [pieceAt]
      omega
    · simp only [pieceAt, Nat.add_mul, Nat.one_mul]

/-- How large a piece has to be for `parts` pieces, or one, to reach `length`. -/
structure PieceSize (length parts size : Nat) : Prop where
  reaches : length ≤ max parts 1 * size
  least : ∀ s, length ≤ max parts 1 * s → size ≤ s

namespace PieceSize

variable {length parts size : Nat}

theorem pos (h : PieceSize length parts size) (hlength : 0 < length) : 0 < size := by
  refine Nat.pos_of_ne_zero ?_
  rintro rfl
  have := h.reaches
  omega

theorem le_length (h : PieceSize length parts size) : size ≤ length :=
  h.least length (Nat.le_mul_of_pos_left length (by omega))

/-- A start and a size that are both at most half of the range do not overflow. -/
theorem stop_lt (h : PieceSize length parts size) (hlength : length ≤ 2 ^ 63) {k : Nat}
    (hk : k * size < length) : (k + 1) * size < 2 ^ 64 := by
  have hsize := h.le_length
  rw [Nat.add_mul, Nat.one_mul]
  omega

/-- The pieces that the interval has room for start at the multiples of their size. -/
theorem lt_count_iff (h : PieceSize length parts size) {i : Nat} :
    i < ceilDiv length size ↔ i * size < length := by
  rcases Nat.eq_zero_or_pos length with rfl | hlength
  · exact ⟨mul_lt_of_lt_ceilDiv, fun hlt => absurd hlt (Nat.not_lt_zero _)⟩
  · exact lt_ceilDiv_iff (h.pos hlength)

theorem tiles (h : PieceSize length parts size) :
    Interval.Tiles 0
      ((List.range (ceilDiv length size)).map fun i => pieceAt length size (i * size)) length := by
  have hstart : ∀ i < ceilDiv length size, i * size < length := fun i hi => h.lt_count_iff.1 hi
  have htiles := tiles_pieceAt hstart
  have hcover : length ≤ ceilDiv length size * size :=
    Nat.le_of_not_lt fun hlt => Nat.lt_irrefl _ (h.lt_count_iff.2 hlt)
  rwa [Nat.min_eq_right hcover] at htiles

theorem pieceAt_pos (h : PieceSize length parts size) {i : Nat} (hi : i < ceilDiv length size) :
    (pieceAt length size (i * size)).start < (pieceAt length size (i * size)).stop := by
  have hlt := h.lt_count_iff.1 hi
  have hpos := h.pos (Nat.zero_lt_of_lt hlt)
  simp only [pieceAt]
  omega

theorem count_le (h : PieceSize length parts size) : ceilDiv length size ≤ max parts 1 :=
  ceilDiv_le_of_le_mul h.reaches

theorem count_le_length (h : PieceSize length parts size) : ceilDiv length size ≤ length := by
  apply ceilDiv_le_of_le_mul
  rcases Nat.eq_zero_or_pos length with rfl | hlength
  · exact Nat.zero_le _
  · exact Nat.le_mul_of_pos_right length (h.pos hlength)

end PieceSize

theorem exists_pieceSize (length parts : Nat) : ∃ size, PieceSize length parts size ∧
    splitInto length parts = (do
      Checked.room (ceilDiv length size) Interval.bytes
      (List.range (ceilDiv length size)).mapM fun i => piece length size (i * size)) := by
  refine ⟨_, ⟨?_, ?_⟩, rfl⟩
  · generalize hp : max 1 (min parts (max length 1)) = p
    have hle := le_ceilDiv_mul length (d := p) (by omega)
    have hmul : ceilDiv length p * p ≤ ceilDiv length p * max parts 1 :=
      Nat.mul_le_mul_left _ (by omega)
    rw [Nat.mul_comm (max parts 1)]
    omega
  · intro s hs
    apply ceilDiv_le_of_le_mul
    rcases Nat.lt_or_ge length (max parts 1) with hlt | hge
    · -- More parts than there are indices: one index for each is enough.
      rcases Nat.eq_zero_or_pos s with rfl | hpos
      · omega
      · have hmul : length ≤ s * length := Nat.le_mul_of_pos_left length hpos
        rcases Nat.eq_zero_or_pos length with rfl | hlength
        · omega
        · rwa [show max 1 (min parts (max length 1)) = length by omega]
    · rw [show max 1 (min parts (max length 1)) = max parts 1 by omega, Nat.mul_comm]
      exact hs

theorem mapM_piece_of_overflow {length parts size : Nat} (hsize : PieceSize length parts size)
    (h : ∃ k, k * size < length ∧ 2 ^ 64 ≤ (k + 1) * size) :
    (List.range (ceilDiv length size)).mapM (fun i => piece length size (i * size)) =
      Checked.fault .overflow := by
  obtain ⟨k, hk, hlarge⟩ := h
  rw [Nat.add_mul, Nat.one_mul] at hlarge
  cases hread : (List.range (ceilDiv length size)).mapM fun i => piece length size (i * size) with
  | ok pieces =>
    have hmem := List.mem_range.2 (hsize.lt_count_iff.2 hk)
    obtain ⟨r, -, hr⟩ := Checked.exists_mem_of_mapM hread k hmem
    rw [piece_of_le hlarge] at hr
    cases hr
  | error e =>
    obtain ⟨i, -, hi⟩ := Checked.exists_mem_of_mapM_error hread
    rcases Nat.lt_or_ge (i * size + size) (2 ^ 64) with hlt | hge
    · rw [piece_of_lt hlt] at hi
      cases hi
    · rw [piece_of_le hge] at hi
      cases hi
      rfl

/-- There are too many pieces for a list, or one of them ends behind 64 bits, or they are all
there. -/
theorem splitInto_cases {length parts size : Nat} (hsize : PieceSize length parts size)
    (hsplit : splitInto length parts = (do
      Checked.room (ceilDiv length size) Interval.bytes
      (List.range (ceilDiv length size)).mapM fun i => piece length size (i * size))) :
    (2 ^ 59 ≤ ceilDiv length size → splitInto length parts = Checked.fault .noRoom) ∧
    (ceilDiv length size < 2 ^ 59 → (∃ k, k * size < length ∧ 2 ^ 64 ≤ (k + 1) * size) →
      splitInto length parts = Checked.fault .overflow) ∧
    (ceilDiv length size < 2 ^ 59 → (∀ k, k * size < length → (k + 1) * size < 2 ^ 64) →
      splitInto length parts =
        .ok ((List.range (ceilDiv length size)).map fun i => pieceAt length size (i * size))) := by
  have hroom : ceilDiv length size < 2 ^ 59 →
      Checked.room (ceilDiv length size) Interval.bytes = .ok () := fun hfew =>
    if_pos (show ceilDiv length size * 16 < 2 ^ 63 by omega)
  refine ⟨fun hmany => ?_, fun hfew hlarge => ?_, fun hfew hfits => ?_⟩
  · have hfull : Checked.room (ceilDiv length size) Interval.bytes = Checked.fault .noRoom :=
      if_neg (show ¬ ceilDiv length size * 16 < 2 ^ 63 by omega)
    rw [hsplit, hfull]
    rfl
  · rw [hsplit, hroom hfew, Checked.ok_bind, mapM_piece_of_overflow hsize hlarge]
  · rw [hsplit, hroom hfew, Checked.ok_bind]
    refine Checked.mapM_eq_ok fun i hi => piece_of_lt ?_
    have hstop := hfits i (hsize.lt_count_iff.1 (List.mem_range.1 hi))
    rwa [Nat.add_mul, Nat.one_mul] at hstop

theorem splitInto_eq_ok {length : Nat} (h : length < 2 ^ 59) (parts : Nat) :
    ∃ pieces, splitInto length parts = .ok pieces ∧ Interval.Tiles 0 pieces length := by
  obtain ⟨size, hsize, hsplit⟩ := exists_pieceSize length parts
  exact ⟨_, (splitInto_cases hsize hsplit).2.2 (Nat.lt_of_le_of_lt hsize.count_le_length h)
    fun k hk => hsize.stop_lt (by omega) hk, hsize.tiles⟩

/-- Where a list of them has room and all pieces of the least size end within 64 bits, the interval
is cut into pieces of that size, none of them empty and only the last possibly shorter, that follow
one another from zero to its end. There are at most as many as were asked for. Too many pieces and
a piece that ends further on are the two ways to fail; fewer than `2 ^ 59` parts are not too many,
and in an interval of at most `2 ^ 63` indices no piece ends further on. -/
theorem splitInto_tiles (length parts : Nat) : ∃ size, PieceSize length parts size ∧
    (ceilDiv length size < 2 ^ 59 → (∀ k, k * size < length → (k + 1) * size < 2 ^ 64) →
      ∃ pieces, splitInto length parts = .ok pieces ∧ pieces.length = ceilDiv length size ∧
        pieces.length ≤ max parts 1 ∧
        Interval.Tiles 0 pieces length ∧ (∀ r ∈ pieces, r.start < r.stop) ∧
        (length = 0 → pieces = []) ∧ (∀ r ∈ pieces.dropLast, r.stop - r.start = size) ∧
        ∀ r ∈ pieces, r.stop - r.start ≤ size) ∧
    (splitInto length parts = Checked.fault .noRoom ↔ 2 ^ 59 ≤ ceilDiv length size) ∧
    (splitInto length parts = Checked.fault .overflow ↔
      ceilDiv length size < 2 ^ 59 ∧ ∃ k, k * size < length ∧ 2 ^ 64 ≤ (k + 1) * size) ∧
    (parts < 2 ^ 59 → ceilDiv length size < 2 ^ 59) ∧
    (length ≤ 2 ^ 63 → ∀ k, k * size < length → (k + 1) * size < 2 ^ 64) := by
  obtain ⟨size, hsize, hsplit⟩ := exists_pieceSize length parts
  obtain ⟨hmany, hlarge, hfine⟩ := splitInto_cases hsize hsplit
  have houtcome : ∀ f, splitInto length parts = Checked.fault f →
      (f = .noRoom ∧ 2 ^ 59 ≤ ceilDiv length size) ∨ (f = .overflow ∧ ceilDiv length size < 2 ^ 59 ∧
        ∃ k, k * size < length ∧ 2 ^ 64 ≤ (k + 1) * size) := by
    intro f hf
    rcases Nat.lt_or_ge (ceilDiv length size) (2 ^ 59) with hfew | hge
    · by_cases hover : ∃ k, k * size < length ∧ 2 ^ 64 ≤ (k + 1) * size
      · rw [hlarge hfew hover] at hf
        cases hf
        exact .inr ⟨rfl, hfew, hover⟩
      · rw [hfine hfew fun k hk => Nat.lt_of_not_le fun hge => hover ⟨k, hk, hge⟩] at hf
        cases hf
    · rw [hmany hge] at hf
      cases hf
      exact .inl ⟨rfl, hge⟩
  refine ⟨size, hsize, fun hfew hfits => ?_, ⟨fun hfault => ?_, hmany⟩,
    ⟨fun hfault => ?_, fun h => hlarge h.1 h.2⟩, fun h => ?_, fun h k hk => hsize.stop_lt h hk⟩
  · have hpos : ∀ r ∈ (List.range (ceilDiv length size)).map
        (fun i => pieceAt length size (i * size)), r.start < r.stop := by
      intro r hr
      obtain ⟨i, hi, rfl⟩ := List.mem_map.1 hr
      exact hsize.pieceAt_pos (List.mem_range.1 hi)
    have hlength : ((List.range (ceilDiv length size)).map
        fun i => pieceAt length size (i * size)).length = ceilDiv length size := by
      rw [List.length_map, List.length_range]
    refine ⟨_, hfine hfew hfits, hlength, hlength.symm ▸ hsize.count_le, hsize.tiles, hpos, ?_, ?_,
      ?_⟩
    · rintro rfl
      exact hsize.tiles.eq_nil hpos
    · intro r hr
      rw [← List.map_dropLast, List.dropLast_eq_take, List.length_range, List.take_range] at hr
      obtain ⟨i, hi, rfl⟩ := List.mem_map.1 hr
      have hnext : (i + 1) * size < length :=
        hsize.lt_count_iff.1 (by have := List.mem_range.1 hi; omega)
      rw [Nat.add_mul, Nat.one_mul] at hnext
      simp only [pieceAt]
      omega
    · intro r hr
      obtain ⟨i, hi, rfl⟩ := List.mem_map.1 hr
      simp only [pieceAt]
      omega
  · obtain ⟨-, hge⟩ | ⟨hf, -⟩ := houtcome _ hfault
    · exact hge
    · cases hf
  · obtain ⟨hf, -⟩ | ⟨-, hover⟩ := houtcome _ hfault
    · cases hf
    · exact hover
  · have := hsize.count_le
    omega

/-- The second half of all 64 bit indices but one would end at `2 ^ 64`. -/
theorem splitInto_all_but_one : splitInto (2 ^ 64 - 1) 2 = Checked.fault .overflow := by
  rfl

end Constituency
