import BlueskyTrends.Lib.Calendar

/-!
# ISO 8601 texts

A wall clock reading with its offset from UTC as `YYYY-MM-DDTHH:MM:SS[.ffffff]±HH:MM`, and the reader
of such texts, which takes a fraction of one to six digits and refuses a date or time of day that
does not exist.

* `number_digits`: a number of fixed width is read back.
* `read_text`: **the text is read as the instant of the reading**, in years of four digits.
-/

namespace Iso

open Calendar

/-- What is read, and what follows it. -/
abbrev Reader (α : Type) := List Char → Option (α × List Char)

/-! ## Numbers of fixed width -/

/-- A number in decimal, by its last `w` digits. -/
def digits : ℕ → ℕ → List Char
  | 0, _ => []
  | w + 1, n => digits w (n / 10) ++ [(n % 10).digitChar]

def value (ds : List Char) : ℕ := ds.foldl (fun n c => 10 * n + (c.toNat - 48)) 0

def number (w : ℕ) : Reader ℕ := fun cs =>
  if (cs.take w).length = w ∧ (cs.take w).all Char.isDigit then
    some (value (cs.take w), cs.drop w)
  else none

/-- A character that has to stand there. -/
def expect (c : Char) : Reader Unit
  | [] => none
  | x :: cs => if x = c then some ((), cs) else none

variable {w n : ℕ} {rest : List Char}

@[simp] theorem length_digits (w n : ℕ) : (digits w n).length = w := by
  induction w generalizing n with
  | zero => rfl
  | succ w ih => simp [digits, ih]

theorem isDigit_digits {c : Char} (h : c ∈ digits w n) : c.isDigit := by
  induction w generalizing n with
  | zero => simp [digits] at h
  | succ w ih =>
    rcases List.mem_append.1 h with h | h
    · exact ih h
    · have hlt := Nat.mod_lt n (show 0 < 10 by omega)
      rw [List.mem_singleton] at h
      subst h
      interval_cases n % 10 <;> decide

theorem value_digits (h : n < 10 ^ w) : value (digits w n) = n := by
  induction w generalizing n with
  | zero =>
    have hn : n = 0 := by omega
    rw [hn]
    rfl
  | succ w ih =>
    have hlt := Nat.mod_lt n (show 0 < 10 by omega)
    have hdigit : (n % 10).digitChar.toNat - 48 = n % 10 := by
      interval_cases n % 10 <;> rfl
    have hrest := ih (n := n / 10) (by rw [pow_succ] at h; omega)
    unfold value at hrest ⊢
    rw [digits, List.foldl_append, hrest]
    simp only [List.foldl_cons, List.foldl_nil, hdigit]
    omega

/-- **A number of fixed width is read back.** -/
theorem number_digits (h : n < 10 ^ w) (rest : List Char) :
    number w (digits w n ++ rest) = some (n, rest) := by
  have htake : (digits w n ++ rest).take w = digits w n := by
    rw [List.take_append_of_le_length (by simp), List.take_of_length_le (by simp)]
  have hdrop : (digits w n ++ rest).drop w = rest := by
    rw [List.drop_append_of_le_length (by simp), List.drop_of_length_le (by simp), List.nil_append]
  have hall : (digits w n).all Char.isDigit := List.all_eq_true.2 fun c hc => isDigit_digits hc
  rw [number, htake, hdrop, value_digits h, if_pos ⟨length_digits w n, hall⟩]

@[simp] theorem expect_cons (c : Char) (rest : List Char) : expect c (c :: rest) = some ((), rest) :=
  if_pos rfl

/-! ## Writing -/

def dateText (x : Date) : List Char :=
  digits 4 x.year.toNat ++ '-' :: (digits 2 x.month.toNat ++ '-' :: digits 2 x.day.toNat)

/-- A time of day, in microseconds. -/
def clockText (us : ℤ) : List Char :=
  digits 2 (us / 3600000000).toNat ++ ':' :: (digits 2 (us / 60000000 % 60).toNat ++
    ':' :: (digits 2 (us / 1000000 % 60).toNat ++
      if us % 1000000 = 0 then [] else '.' :: digits 6 (us % 1000000).toNat))

/-- An offset, in minutes. -/
def offsetText (o : ℤ) : List Char :=
  (if o < 0 then '-' else '+') :: (digits 2 (o.natAbs / 60) ++ ':' :: digits 2 (o.natAbs % 60))

/-- A wall clock reading, in microseconds from 1970-01-01T00:00, and its offset from UTC in minutes. -/
structure Stamp where
  wall : ℤ
  offset : ℤ
  bounded : |offset| < 1440

namespace Stamp

/-- The instant, in microseconds from 1970-01-01T00:00Z. -/
def instant (s : Stamp) : ℤ := s.wall - 60000000 * s.offset

def date (s : Stamp) : Date := .ofNumber (s.wall / 86400000000)

def text (s : Stamp) : List Char :=
  dateText s.date ++ 'T' :: (clockText (s.wall % 86400000000) ++ offsetText s.offset)

end Stamp

/-! ## Reading -/

def readDate : Reader Date := fun cs => do
  let (y, cs) ← number 4 cs
  let (_, cs) ← expect '-' cs
  let (m, cs) ← number 2 cs
  let (_, cs) ← expect '-' cs
  let (d, cs) ← number 2 cs
  if h : Valid y m d then return (⟨y, m, d, h⟩, cs) else none

/-- The fraction of a second, in microseconds. -/
def readFraction : Reader ℕ
  | [] => some (0, [])
  | c :: cs =>
    if c = '.' then
      let ds := cs.takeWhile Char.isDigit
      if 1 ≤ ds.length ∧ ds.length ≤ 6 then
        some (value ds * 10 ^ (6 - ds.length), cs.dropWhile Char.isDigit)
      else none
    else some (0, c :: cs)

def readClock : Reader ℤ := fun cs => do
  let (h, cs) ← number 2 cs
  let (_, cs) ← expect ':' cs
  let (m, cs) ← number 2 cs
  let (_, cs) ← expect ':' cs
  let (s, cs) ← number 2 cs
  let (f, cs) ← readFraction cs
  if h < 24 ∧ m < 60 ∧ s < 60 then
    return (3600000000 * (h : ℤ) + 60000000 * (m : ℤ) + 1000000 * (s : ℤ) + f, cs)
  else none

def readOffset : Reader ℤ
  | [] => none
  | c :: cs => do
    let (h, cs) ← number 2 cs
    let (_, cs) ← expect ':' cs
    let (m, cs) ← number 2 cs
    if h < 24 ∧ m < 60 then
      if c = '+' then return (60 * (h : ℤ) + m, cs)
      else if c = '-' then return (-(60 * (h : ℤ) + m), cs)
      else none
    else none

/-- The instant of a text. -/
def read (text : List Char) : Option ℤ := do
  let (x, cs) ← readDate text
  let (_, cs) ← expect 'T' cs
  let (us, cs) ← readClock cs
  let (o, cs) ← readOffset cs
  if cs = [] then return x.number * 86400000000 + us - 60000000 * o else none

/-! ## Reading what is written -/

theorem readDate_dateText {x : Date} (h0 : 0 ≤ x.year) (h : x.year < 10000) (rest : List Char) :
    readDate (dateText x ++ rest) = some (x, rest) := by
  obtain ⟨y, m, d, hv⟩ := x
  obtain ⟨⟨hm1, hm12⟩, hd1, hd31⟩ := hv.range
  lift y to ℕ using h0
  lift m to ℕ using by omega
  lift d to ℕ using by omega
  have hy : y < 10 ^ 4 := by simp only at h; omega
  have hm : m < 10 ^ 2 := by omega
  have hd : d < 10 ^ 2 := by omega
  simp only [dateText, Int.toNat_natCast, List.append_assoc, List.cons_append, readDate,
    number_digits hy, number_digits hm, number_digits hd, expect_cons, Option.bind_eq_bind,
    Option.bind_some, dif_pos hv]
  rfl

theorem readFraction_nil {c : Char} (h : c ≠ '.') (rest : List Char) :
    readFraction (c :: rest) = some (0, c :: rest) := if_neg h

theorem readFraction_digits {n : ℕ} (h : n < 10 ^ 6) {c : Char} (hc : c.isDigit = false)
    (rest : List Char) : readFraction ('.' :: (digits 6 n ++ c :: rest)) = some (n, c :: rest) := by
  have htake : (digits 6 n ++ c :: rest).takeWhile Char.isDigit = digits 6 n := by
    rw [List.takeWhile_append_of_pos fun x hx => isDigit_digits hx,
      List.takeWhile_cons_of_neg (by simp [hc]), List.append_nil]
  have hdrop : (digits 6 n ++ c :: rest).dropWhile Char.isDigit = c :: rest := by
    rw [List.dropWhile_append_of_pos fun x hx => isDigit_digits hx,
      List.dropWhile_cons_of_neg (by simp [hc])]
  rw [readFraction, if_pos rfl]
  simp only [htake, hdrop, length_digits, value_digits h]
  rw [if_pos (by omega), pow_zero, mul_one]

/-- A time of day is read back, before a sign. -/
theorem readClock_clockText {us : ℤ} (h0 : 0 ≤ us) (h : us < 86400000000) {c : Char} (hdot : c ≠ '.')
    (hc : c.isDigit = false) (rest : List Char) :
    readClock (clockText us ++ c :: rest) = some (us, c :: rest) := by
  have hhour : (us / 3600000000).toNat < 10 ^ 2 := by omega
  have hminute : (us / 60000000 % 60).toNat < 10 ^ 2 := by omega
  have hsecond : (us / 1000000 % 60).toNat < 10 ^ 2 := by omega
  have hmicro : (us % 1000000).toNat < 10 ^ 6 := by omega
  have hrange : (us / 3600000000).toNat < 24 ∧ (us / 60000000 % 60).toNat < 60 ∧
      (us / 1000000 % 60).toNat < 60 := by
    omega
  have hparts : 3600000000 * ((us / 3600000000).toNat : ℤ) +
      60000000 * ((us / 60000000 % 60).toNat : ℤ) + 1000000 * ((us / 1000000 % 60).toNat : ℤ) +
        ((us % 1000000).toNat : ℤ) = us := by
    omega
  have hfraction : readFraction ((if us % 1000000 = 0 then [] else
      '.' :: digits 6 (us % 1000000).toNat) ++ c :: rest) =
        some ((us % 1000000).toNat, c :: rest) := by
    split
    · rename_i hzero
      rw [hzero, List.nil_append]
      exact readFraction_nil hdot rest
    · exact readFraction_digits hmicro hc rest
  simp only [clockText, List.append_assoc, List.cons_append, readClock, number_digits hhour,
    number_digits hminute, number_digits hsecond, expect_cons, hfraction, Option.bind_eq_bind,
    Option.bind_some, if_pos hrange, hparts]
  rfl

theorem readOffset_offsetText {o : ℤ} (h : |o| < 1440) : readOffset (offsetText o) = some (o, []) := by
  rw [abs_lt] at h
  have hhour : o.natAbs / 60 < 10 ^ 2 := by omega
  have hminute : o.natAbs % 60 < 10 ^ 2 := by omega
  have hrange : o.natAbs / 60 < 24 ∧ o.natAbs % 60 < 60 := by omega
  have hend := number_digits hminute []
  rw [List.append_nil] at hend
  simp only [offsetText, readOffset, number_digits hhour, hend, expect_cons, Option.bind_eq_bind,
    Option.bind_some, if_pos hrange]
  by_cases hneg : o < 0
  · have hvalue : -(60 * ((o.natAbs / 60 : ℕ) : ℤ) + ((o.natAbs % 60 : ℕ) : ℤ)) = o := by omega
    rw [if_pos hneg, if_neg (by decide), if_pos rfl, hvalue]
    rfl
  · have hvalue : 60 * ((o.natAbs / 60 : ℕ) : ℤ) + ((o.natAbs % 60 : ℕ) : ℤ) = o := by omega
    rw [if_neg hneg, if_pos rfl, hvalue]
    rfl

/-- **The text is read as the instant of the reading.** -/
theorem read_text {s : Stamp} (h0 : 0 ≤ s.date.year) (h : s.date.year < 10000) :
    read s.text = some s.instant := by
  have hdate := readDate_dateText h0 h
  -- what follows the time of day is a sign
  have hclock : ∀ o : ℤ, readClock (clockText (s.wall % 86400000000) ++ offsetText o) =
      some (s.wall % 86400000000, offsetText o) := by
    intro o
    have hus0 : 0 ≤ s.wall % 86400000000 := by omega
    have hus : s.wall % 86400000000 < 86400000000 := by omega
    unfold offsetText
    split
    · exact readClock_clockText hus0 hus (by decide) (by decide) _
    · exact readClock_clockText hus0 hus (by decide) (by decide) _
  have hday : s.date.number = s.wall / 86400000000 := number_ofNumber _
  simp only [read, Stamp.text, hdate, expect_cons, hclock, readOffset_offsetText s.bounded,
    Option.bind_eq_bind, Option.bind_some, if_pos, hday, Stamp.instant]
  refine congrArg some ?_
  omega

end Iso
