import BlueskyTrends.Lib.Json

/-!
# Reading JSON text

A reader of JSON text by recursive descent, with white space between the tokens. How the characters
inside a string are read is a parameter, as is how they are written. The recursion is bounded by the
length of the text.

* `readChars_code`: a string is read up to its quotation mark.
* `readListed_listed`: a list is read up to its bracket.
* `read_print`: **what is written is read back**.
-/

namespace Json

/-- White space between tokens. -/
def blank (c : Char) : Bool := c = ' ' || c = '\n' || c = '\r' || c = '\t'

/-- A character of an atom, in text with white space. -/
def token (c : Char) : Bool := plain c && !blank c

def skip (cs : List Char) : List Char := cs.dropWhile blank

/-- What is read, and what follows it. -/
abbrev Reader (α : Type) := List Char → Option (α × List Char)

variable {α : Type}

/-- The characters of a string, up to the quotation mark. -/
def readChars (next : Reader Char) : ℕ → Reader (List Char)
  | 0, _ => none
  | _ + 1, [] => none
  | n + 1, c :: cs =>
    if c = quote then some ([], cs)
    else do
      let (x, cs) ← next (c :: cs)
      let (xs, cs) ← readChars next n cs
      return (x :: xs, cs)

/-- What follows the first element of a list. -/
def readTail (rd : Reader α) (close : Char) : ℕ → Reader (List α)
  | 0, _ => none
  | n + 1, cs => match skip cs with
    | [] => none
    | c :: cs =>
      if c = close then some ([], cs)
      else if c = ',' then do
        let (x, cs) ← rd (skip cs)
        let (xs, cs) ← readTail rd close n cs
        return (x :: xs, cs)
      else none

/-- The elements of a list, after its opening bracket. -/
def readListed (rd : Reader α) (close : Char) (n : ℕ) : Reader (List α) := fun cs =>
  match skip cs with
  | [] => none
  | c :: cs =>
    if c = close then some ([], cs)
    else do
      let (x, cs) ← rd (c :: cs)
      let (xs, cs) ← readTail rd close n cs
      return (x :: xs, cs)

/-- A member of an object. -/
def readMember (next : Reader Char) (n : ℕ) (rd : Reader Value) : Reader (List Char × Value)
  | [] => none
  | c :: cs =>
    if c = quote then do
      let (k, cs) ← readChars next n cs
      match skip cs with
      | [] => none
      | c :: cs =>
        if c = ':' then do
          let (v, cs) ← rd (skip cs)
          return ((k, v), cs)
        else none
    else none

/-- A value. -/
def readValue (next : Reader Char) : ℕ → Reader Value
  | 0, _ => none
  | _ + 1, [] => none
  | n + 1, c :: cs =>
    if c = quote then do
      let (s, cs) ← readChars next n cs
      return (.str s, cs)
    else if c = '[' then do
      let (xs, cs) ← readListed (readValue next n) ']' n cs
      return (.arr xs, cs)
    else if c = openBrace then do
      let (members, cs) ← readListed (readMember next n (readValue next n)) closeBrace n cs
      return (.obj members, cs)
    else if token c then some (.atom ((c :: cs).takeWhile token), (c :: cs).dropWhile token)
    else none

/-- A text with one value in it. -/
def read (next : Reader Char) (text : List Char) : Option Value := do
  let (v, cs) ← readValue next (text.length + 1) (skip text)
  if skip cs = [] then return v else none

/-! ## Reading what is written -/

variable {E : Escape} {next : Reader Char} {close : Char}

/-- The characters of a string are read as they are written. -/
def Inverts (E : Escape) (next : Reader Char) : Prop := ∀ c rest, next (E.code c ++ rest) = some (c, rest)

theorem skip_cons {c : Char} {cs : List Char} (h : blank c = false) : skip (c :: cs) = c :: cs := by
  unfold skip
  rw [List.dropWhile_cons, h]
  rfl

/-- **A string is read up to its quotation mark.** -/
theorem readChars_code (hE : Inverts E next) (s rest : List Char) {n : ℕ} (hn : s.length < n) :
    readChars next n (s.flatMap E.code ++ quote :: rest) = some (s, rest) := by
  induction s generalizing n with
  | nil =>
    obtain ⟨n, rfl⟩ : ∃ k, n = k + 1 := ⟨n - 1, by omega⟩
    simp [readChars]
  | cons c s ih =>
    obtain ⟨n, rfl⟩ : ∃ k, n = k + 1 := ⟨n - 1, by omega⟩
    obtain ⟨x, xs, hcode, hx⟩ := E.unquoted c
    have hnext := hE c (s.flatMap E.code ++ quote :: rest)
    have hrest := ih (n := n) (by simpa using hn)
    rw [List.flatMap_cons, List.append_assoc]
    rw [hcode] at hnext ⊢
    rw [List.cons_append, readChars, if_neg hx, ← List.cons_append, hnext]
    simp [hrest]

/-- An element that is read back, and starts like one. -/
structure Element (rd : Reader α) (close : Char) (text : α → List Char) (x : α) : Prop where
  starts : ∃ c cs, text x = c :: cs ∧ blank c = false ∧ c ≠ close
  reads : ∀ rest, Ends rest → rd (text x ++ rest) = some (x, rest)

theorem Element.skip {rd : Reader α} {text : α → List Char} {x : α} (h : Element rd close text x) (rest : List Char) :
    Json.skip (text x ++ rest) = text x ++ rest := by
  obtain ⟨c, cs, hc, hblank, -⟩ := h.starts
  rw [hc]
  exact skip_cons hblank

theorem readTail_tail {rd : Reader α} {text : α → List Char} (hclose : close = ']' ∨ close = closeBrace)
    (xs : List α) (hxs : ∀ x ∈ xs, Element rd close text x) (rest : List Char) {n : ℕ} (hn : xs.length < n) :
    readTail rd close n (tail close (xs.map text) ++ rest) = some (xs, rest) := by
  have hblank : blank close = false := by rcases hclose with rfl | rfl <;> decide
  have hcomma : (',' : Char) ≠ close := by rcases hclose with rfl | rfl <;> decide
  induction xs generalizing n with
  | nil =>
    obtain ⟨n, rfl⟩ : ∃ k, n = k + 1 := ⟨n - 1, by omega⟩
    rw [List.map_nil, tail, List.cons_append, readTail, skip_cons hblank]
    simp
  | cons x xs ih =>
    obtain ⟨n, rfl⟩ : ∃ k, n = k + 1 := ⟨n - 1, by omega⟩
    have hx := hxs x List.mem_cons_self
    have hrest := ih (fun y hy => hxs y (List.mem_cons_of_mem _ hy)) (n := n) (by simpa using hn)
    have hread := hx.reads _ (ends_tail hclose (xs.map text) rest)
    rw [List.map_cons, tail, List.cons_append, List.append_assoc, readTail, skip_cons (by decide)]
    simp only [hcomma, if_false, if_true]
    rw [hx.skip, hread]
    simp [hrest]

/-- **A list is read up to its bracket.** -/
theorem readListed_listed {rd : Reader α} {text : α → List Char} (hclose : close = ']' ∨ close = closeBrace)
    (xs : List α) (hxs : ∀ x ∈ xs, Element rd close text x) (rest : List Char) {n : ℕ} (hn : xs.length ≤ n) :
    readListed rd close n (listed close (xs.map text) ++ rest) = some (xs, rest) := by
  have hblank : blank close = false := by rcases hclose with rfl | rfl <;> decide
  cases xs with
  | nil =>
    rw [List.map_nil, listed, List.cons_append, readListed, skip_cons hblank]
    simp
  | cons x xs =>
    have hx := hxs x List.mem_cons_self
    have hlen : xs.length < n := by
      rw [List.length_cons] at hn
      omega
    have hrest := readTail_tail hclose xs (fun y hy => hxs y (List.mem_cons_of_mem _ hy)) rest hlen
    have hread := hx.reads _ (ends_tail hclose (xs.map text) rest)
    rw [List.map_cons, listed, List.append_assoc, readListed, hx.skip]
    obtain ⟨c, cs, hc, -, hne⟩ := hx.starts
    rw [hc, List.cons_append] at hread ⊢
    simp only [hne, if_false]
    rw [hread]
    simp [hrest]

/-! ## Lengths -/

theorem length_lt_listed {ts : List (List Char)} {t : List Char} (ht : t ∈ ts) :
    t.length < (listed close ts).length := by
  have htail : ∀ ts : List (List Char), t ∈ ts → t.length < (tail close ts).length := by
    intro ts ht
    induction ts with
    | nil => cases ht
    | cons u ts ih =>
      rw [tail, List.length_cons, List.length_append]
      rcases List.mem_cons.1 ht with rfl | ht
      · omega
      · have := ih ht
        omega
  have hpos : ∀ ts : List (List Char), 0 < (tail close ts).length := by
    intro ts
    cases ts with
    | nil => simp [tail]
    | cons u ts => simp [tail]
  cases ts with
  | nil => cases ht
  | cons u ts =>
    rw [listed, List.length_append]
    rcases List.mem_cons.1 ht with rfl | ht
    · have := hpos ts
      omega
    · have := htail ts ht
      omega

theorem length_le_listed (ts : List (List Char)) : ts.length ≤ (listed close ts).length := by
  have htail : ∀ ts : List (List Char), ts.length < (tail close ts).length := by
    intro ts
    induction ts with
    | nil => simp [tail]
    | cons u ts ih =>
      rw [tail, List.length_cons, List.length_cons, List.length_append]
      omega
  cases ts with
  | nil => simp
  | cons u ts =>
    rw [listed, List.length_append, List.length_cons]
    have := htail ts
    omega

theorem length_lt_quoted (s : List Char) : s.length + 1 < (quoted E s).length := by
  have hcode : s.length ≤ (s.flatMap E.code).length := by
    induction s with
    | nil => simp
    | cons c s ih =>
      obtain ⟨x, xs, hx, -⟩ := E.unquoted c
      rw [List.flatMap_cons, List.length_append, hx, List.length_cons, List.length_cons]
      omega
  rw [quoted, List.length_cons, List.length_append, List.length_singleton]
  omega

/-! ## The round trip -/

/-- Every atom is a token. -/
inductive Compact : Value → Prop
  | atom {text : List Char} (hne : text ≠ []) (htoken : ∀ c ∈ text, token c) : Compact (.atom text)
  | str (s : List Char) : Compact (.str s)
  | arr {xs : List Value} (h : ∀ x ∈ xs, Compact x) : Compact (.arr xs)
  | obj {members : List (List Char × Value)} (h : ∀ m ∈ members, Compact m.2) : Compact (.obj members)

theorem token_delimits {c : Char} (h : token c) :
    blank c = false ∧ c ≠ quote ∧ c ≠ '[' ∧ c ≠ ']' ∧ c ≠ openBrace ∧ c ≠ closeBrace ∧ c ≠ ',' ∧ c ≠ ':' := by
  have hall : c ≠ quote ∧ c ≠ '[' ∧ c ≠ ']' ∧ c ≠ openBrace ∧ c ≠ closeBrace ∧ c ≠ ',' ∧ c ≠ ':' ∧ blank c = false := by
    simpa [token, plain, and_assoc] using h
  tauto

/-- No text starts with white space or a closing bracket. -/
theorem Compact.starts {v : Value} (hv : Compact v) (hclose : close = ']' ∨ close = closeBrace) :
    ∃ c cs, print E v = c :: cs ∧ blank c = false ∧ c ≠ close := by
  cases hv with
  | @atom text hne htoken =>
    obtain ⟨c, cs, rfl⟩ := List.exists_cons_of_ne_nil hne
    obtain ⟨hblank, -, -, hbracket, -, hbrace, -⟩ := token_delimits (htoken c List.mem_cons_self)
    refine ⟨c, cs, by rw [print], hblank, ?_⟩
    rcases hclose with rfl | rfl
    · exact hbracket
    · exact hbrace
  | str s => exact ⟨quote, _, by rw [print, quoted], by decide, by rcases hclose with rfl | rfl <;> decide⟩
  | arr h => exact ⟨'[', _, by rw [print], by decide, by rcases hclose with rfl | rfl <;> decide⟩
  | obj h => exact ⟨openBrace, _, by rw [print], by decide, by rcases hclose with rfl | rfl <;> decide⟩

theorem Compact.skip {v : Value} (hv : Compact v) (rest : List Char) :
    Json.skip (print E v ++ rest) = print E v ++ rest := by
  obtain ⟨c, cs, hc, hblank, -⟩ : ∃ c cs, print E v = c :: cs ∧ blank c = false ∧ c ≠ ']' := hv.starts (Or.inl rfl)
  rw [hc]
  exact skip_cons hblank

/-- An atom is read up to where it ends. -/
theorem takeWhile_token {text rest : List Char} (htoken : ∀ c ∈ text, token c) (hrest : Ends rest) :
    (text ++ rest).takeWhile token = text ∧ (text ++ rest).dropWhile token = rest := by
  have hend : rest.takeWhile token = [] ∧ rest.dropWhile token = rest := by
    cases rest with
    | nil => exact ⟨rfl, rfl⟩
    | cons c rest =>
      have hc : token c = false := by
        rcases hrest c rfl with rfl | rfl | rfl <;> decide
      rw [List.takeWhile_cons, List.dropWhile_cons, hc]
      exact ⟨rfl, rfl⟩
  rw [List.takeWhile_append_of_pos htoken, List.dropWhile_append_of_pos htoken, hend.1, hend.2]
  exact ⟨List.append_nil _, rfl⟩

/-- **What is written is read back**, whatever follows that cannot belong to it. -/
theorem readValue_print (hE : Inverts E next) : ∀ v : Value, Compact v → ∀ (rest : List Char) (n : ℕ), Ends rest →
    (print E v).length < n → readValue next n (print E v ++ rest) = some (v, rest) := by
  intro v
  induction v using Value.ind with
  | hatom text =>
    intro hv rest n hrest hn
    obtain ⟨n, rfl⟩ : ∃ k, n = k + 1 := ⟨n - 1, by omega⟩
    cases hv with
    | atom hne htoken =>
      obtain ⟨htake, hdrop⟩ := takeWhile_token htoken hrest
      obtain ⟨c, cs, rfl⟩ := List.exists_cons_of_ne_nil hne
      have hc := htoken c List.mem_cons_self
      obtain ⟨-, hquote, hopen, -, hbrace, -⟩ := token_delimits hc
      rw [print, List.cons_append] at *
      rw [readValue, if_neg hquote, if_neg hopen, if_neg hbrace, if_pos hc, htake, hdrop]
  | hstr s =>
    intro hv rest n hrest hn
    obtain ⟨n, rfl⟩ : ∃ k, n = k + 1 := ⟨n - 1, by omega⟩
    have hlen := length_lt_quoted (E := E) s
    rw [print] at hn ⊢
    have hchars := readChars_code hE s rest (n := n) (by omega)
    rw [quoted, List.cons_append, List.append_assoc, List.singleton_append, readValue, if_pos rfl, hchars]
    rfl
  | harr xs ih =>
    intro hv rest n hrest hn
    obtain ⟨n, rfl⟩ : ∃ k, n = k + 1 := ⟨n - 1, by omega⟩
    cases hv with
    | arr hxs =>
      rw [print, printElems_eq] at hn ⊢
      rw [List.length_cons] at hn
      have hcount : (xs.map (print E)).length ≤ (listed ']' (xs.map (print E))).length := length_le_listed _
      rw [List.length_map] at hcount
      have helems : ∀ x ∈ xs, Element (readValue next n) ']' (print E) x := by
        intro x hx
        refine ⟨(hxs x hx).starts (Or.inl rfl), fun rest hrest => ?_⟩
        have hlen : (print E x).length < (listed ']' (xs.map (print E))).length :=
          length_lt_listed (List.mem_map.2 ⟨x, hx, rfl⟩)
        exact ih x hx (hxs x hx) rest n hrest (by omega)
      have hlisted := readListed_listed (Or.inl rfl) xs helems rest (n := n) (by omega)
      rw [List.cons_append, readValue, if_neg (by decide), if_pos rfl, hlisted]
      rfl
  | hobj members ih =>
    intro hv rest n hrest hn
    obtain ⟨n, rfl⟩ : ∃ k, n = k + 1 := ⟨n - 1, by omega⟩
    cases hv with
    | obj hmembers =>
      rw [print, printMembers_eq] at hn ⊢
      rw [List.length_cons] at hn
      have hcount : (members.map (printMember E)).length ≤ (listed closeBrace (members.map (printMember E))).length :=
        length_le_listed _
      rw [List.length_map] at hcount
      have helems : ∀ m ∈ members, Element (readMember next n (readValue next n)) closeBrace (printMember E) m := by
        intro m hm
        refine ⟨⟨quote, _, rfl, by decide, by decide⟩, fun rest hrest => ?_⟩
        have hlen : (printMember E m).length < (listed closeBrace (members.map (printMember E))).length :=
          length_lt_listed (List.mem_map.2 ⟨m, hm, rfl⟩)
        have hkey := length_lt_quoted (E := E) m.1
        rw [printMember, List.length_append, List.length_cons] at hlen
        have hchars := readChars_code hE m.1 (':' :: (print E m.2 ++ rest)) (n := n) (by omega)
        have hvalue := ih m hm (hmembers m hm) rest n hrest (by omega)
        have hskip : skip (print E m.2 ++ rest) = print E m.2 ++ rest := (hmembers m hm).skip rest
        rw [printMember, quoted, List.cons_append, List.cons_append, List.append_assoc, List.append_assoc,
          List.singleton_append, List.cons_append, readMember, if_pos rfl, hchars]
        simp only [Option.bind_eq_bind, Option.bind_some]
        rw [skip_cons (by decide)]
        simp only [if_true]
        rw [hskip, hvalue]
        rfl
      have hlisted := readListed_listed (Or.inr rfl) members helems rest (n := n) (by omega)
      rw [List.cons_append, readValue, if_neg (by decide), if_neg (by decide), if_pos rfl, hlisted]
      rfl

/-- **What is written is read back.** -/
theorem read_print (hE : Inverts E next) {v : Value} (hv : Compact v) : read next (print E v) = some v := by
  have hskip : skip (print E v) = print E v := by
    have h := hv.skip (E := E) []
    rwa [List.append_nil] at h
  have hvalue := readValue_print hE v hv [] ((print E v).length + 1) ends_nil (Nat.lt_succ_self _)
  rw [List.append_nil] at hvalue
  rw [read, hskip, hvalue]
  rfl

end Json
