import GraphQubo.Proofs.Toml.Scalar

/-!
# GraphQubo.Proofs.Toml.Lines

Lines are read back as the statements that they write.

A statement is written as one line; a header has a blank line before it.  All keys are bare,
and a value is one word or an empty array.

* `path?_pathChars`, `value?_plain` — the two parts of a line;
* `Statement.Simple.statement?_body` — a line;
* `statements?_eq` — the lines of a document.
-/

namespace GraphQubo.Toml

/-! ## Where a run of characters ends -/

/-- The characters do not begin with one of a kind. -/
def Stops (p : Char → Bool) (cs : List Char) : Prop := ∀ c, cs.head? = some c → p c = false

/-- A text stops at a first character that is refused. -/
theorem stops_cons {p : Char → Bool} {c : Char} {cs : List Char} (h : p c = false) :
    Stops p (c :: cs) := fun _ hd => Option.some.inj hd ▸ h

theorem takeWhile_of_stops {p : Char → Bool} {cs : List Char} (h : Stops p cs) :
    cs.takeWhile p = [] := by
  cases cs with
  | nil => rfl
  | cons c cs => rw [List.takeWhile_cons_of_neg (by simp [h c rfl])]

theorem dropWhile_of_stops {p : Char → Bool} {cs : List Char} (h : Stops p cs) :
    cs.dropWhile p = cs := by
  cases cs with
  | nil => rfl
  | cons c cs => rw [List.dropWhile_cons_of_neg (by simp [h c rfl])]

/-- A word is taken up to the text that stops it. -/
theorem takeWhile_append_of_stops {p : Char → Bool} {word rest : List Char}
    (hword : ∀ c ∈ word, p c = true) (hrest : Stops p rest) :
    (word ++ rest).takeWhile p = word := by
  rw [List.takeWhile_append_of_pos hword, takeWhile_of_stops hrest, List.append_nil]

/-- Dropping a word leaves the text that stops it. -/
theorem dropWhile_append_of_stops {p : Char → Bool} {word rest : List Char}
    (hword : ∀ c ∈ word, p c = true) (hrest : Stops p rest) :
    (word ++ rest).dropWhile p = rest := by
  rw [List.dropWhile_append_of_pos hword, dropWhile_of_stops hrest]

/-! ## Keys -/

/-- A key that is written without quotes. -/
def IsBareKey (key : String) : Prop :=
  key.toList ≠ [] ∧ ∀ c ∈ key.toList, isBareKeyChar c = true

instance (key : String) : Decidable (IsBareKey key) :=
  decidable_of_iff (key.toList ≠ [] ∧ key.toList.all isBareKeyChar = true)
    (and_congr_right fun _ => List.all_eq_true)

/-- A bare key is written as it is. -/
theorem keyText_eq {key : String} (h : IsBareKey key) : keyText key = key := by
  have hne : key.isEmpty = false := by
    rw [Bool.eq_false_iff, ne_eq, String.isEmpty_iff]
    rintro rfl
    exact h.1 rfl
  have hall : (key.toList.all fun c => c.isAlphanum || c == '_' || c == '-') = true :=
    List.all_eq_true.2 h.2
  simp only [keyText, hall, hne]
  rfl

/-- No character of a bare key is blank. -/
theorem isBlank_of_isBareKeyChar {c : Char} (h : isBareKeyChar c = true) :
    isBlank c = false := by
  rw [Bool.eq_false_iff]
  intro hblank
  have hcases : c = ' ' ∨ c = '\t' := by simpa [isBlank] using hblank
  rcases hcases with rfl | rfl <;> cases h

/-- A bare key is not empty. -/
theorem IsBareKey.exists_cons {key : String} (h : IsBareKey key) :
    ∃ c cs, key.toList = c :: cs ∧ isBareKeyChar c = true := by
  obtain ⟨c, cs, hkey⟩ := List.exists_cons_of_ne_nil h.1
  exact ⟨c, cs, hkey, h.2 c (hkey ▸ List.mem_cons_self)⟩

/-- A bare key is read up to the character that ends it. -/
theorem simpleKey?_bare {key : String} (hkey : IsBareKey key) {rest : List Char}
    (hrest : Stops isBareKeyChar rest) :
    simpleKey? (key.toList ++ rest) = some (key, rest) := by
  have hword := takeWhile_append_of_stops hkey.2 hrest
  have hafter := dropWhile_append_of_stops hkey.2 hrest
  have hne : key.toList.isEmpty = false := List.isEmpty_eq_false_iff.2 hkey.1
  obtain ⟨c, cs, hcs, hc⟩ := hkey.exists_cons
  have hquotes : c ≠ '"' ∧ c ≠ '\'' := by
    constructor <;> rintro rfl <;> cases hc
  unfold simpleKey?
  split
  · rename_i heq
    exact absurd (List.cons.inj (hcs ▸ heq)).1 hquotes.1
  · rename_i heq
    exact absurd (List.cons.inj (hcs ▸ heq)).1 hquotes.2
  · simp only [hword, hafter, hne, Bool.false_eq_true, if_false, String.ofList_toList]

/-! ## Paths -/

/-- A path of bare keys, at least one. -/
def IsBarePath (path : List String) : Prop := path ≠ [] ∧ ∀ key ∈ path, IsBareKey key

/-- Nothing is skipped before a character that is not blank. -/
theorem skipBlanks_eq {cs : List Char} (h : Stops isBlank cs) : skipBlanks cs = cs :=
  dropWhile_of_stops h

/-- The characters of a path of bare keys. -/
def pathChars : List String → List Char
  | [] => []
  | [key] => key.toList
  | key :: rest => key.toList ++ '.' :: pathChars rest

/-- A path of bare keys is written with dots between them. -/
theorem toList_pathText {path : List String} (h : ∀ key ∈ path, IsBareKey key) :
    (pathText path).toList = pathChars path := by
  have hkeys : path.map keyText = path :=
    (List.map_congr_left fun key hkey => keyText_eq (h key hkey)).trans (List.map_id _)
  rw [pathText, hkeys, String.toList_intercalate]
  clear h hkeys
  induction path with
  | nil => rfl
  | cons key path ih =>
    cases path with
    | nil => exact List.intercalate_singleton
    | cons next path =>
      rw [pathChars, ← ih, List.map_cons, List.map_cons, List.intercalate_cons_cons]
      · simp
      · exact List.cons_ne_nil _ _

/-- No blank stands before a bare key. -/
theorem stops_isBlank_append {key : String} (h : IsBareKey key) (rest : List Char) :
    Stops isBlank (key.toList ++ rest) := by
  obtain ⟨c, cs, hcs, hc⟩ := h.exists_cons
  rw [hcs]
  exact stops_cons (isBlank_of_isBareKeyChar hc)

/-- A path is read up to what cannot belong to it. -/
theorem path?_pathChars {path : List String} (hpath : IsBarePath path) {rest : List Char}
    (hrest : Stops isBareKeyChar rest) (hdot : (skipBlanks rest).head? ≠ some '.') {fuel : Nat}
    (hfuel : path.length ≤ fuel) :
    path? fuel (pathChars path ++ rest) = some (path, skipBlanks rest) := by
  induction path generalizing fuel with
  | nil => exact absurd rfl hpath.1
  | cons key path ih =>
    obtain ⟨fuel, rfl⟩ := Nat.exists_eq_add_of_le' (Nat.le_trans (by simp) hfuel : 1 ≤ fuel)
    have hkey := hpath.2 key List.mem_cons_self
    cases path with
    | nil =>
      rw [pathChars, path?, skipBlanks_eq (stops_isBlank_append hkey rest),
        simpleKey?_bare hkey hrest]
      simp only [Option.bind_eq_bind, Option.bind_some]
      split
      · rename_i heq
        exact absurd (congrArg List.head? heq) hdot
      · rfl
    | cons next path =>
      have hnext : IsBarePath (next :: path) :=
        ⟨List.cons_ne_nil _ _, fun k hk => hpath.2 k (List.mem_cons_of_mem _ hk)⟩
      have hafter := ih hnext (Nat.le_of_succ_le_succ hfuel)
      have hstop : Stops isBareKeyChar ('.' :: (pathChars (next :: path) ++ rest)) :=
        stops_cons (by decide)
      have hblank : Stops isBlank ('.' :: (pathChars (next :: path) ++ rest)) :=
        stops_cons (by decide)
      have hchars : pathChars (key :: next :: path) ++ rest =
          key.toList ++ '.' :: (pathChars (next :: path) ++ rest) := by
        rw [pathChars, List.append_assoc, List.cons_append]
        exact List.cons_ne_nil _ _
      rw [hchars, path?, skipBlanks_eq (stops_isBlank_append hkey _), simpleKey?_bare hkey hstop]
      simp only [Option.bind_eq_bind, Option.bind_some, skipBlanks_eq hblank, hafter]
      rfl

/-! ## Values -/

/-- A value that is written in a line: one word, or an array without items. -/
inductive Value.Plain : Value → Prop where
  | word {v : Value} (h : v.ReadsBack) : Plain v
  | nothing : Plain (.array [])

/-- A value that is read back has a text, which begins with a scalar character. -/
theorem Value.ReadsBack.exists_cons {v : Value} (h : v.ReadsBack) :
    ∃ c cs, (inlineText v).toList = c :: cs ∧ isScalarChar c = true := by
  cases hcs : (inlineText v).toList with
  | nil =>
    have hscalar := h.scalar
    rw [hcs] at hscalar
    cases hscalar
  | cons c cs => exact ⟨c, cs, rfl, h.chars c (hcs ▸ List.mem_cons_self)⟩

/-- Up to the end of its line the word of a value is read as the value. -/
theorem unquoted?_word {v : Value} (h : v.ReadsBack) (rest : List Char) :
    unquoted? ((inlineText v).toList ++ '\n' :: rest) = some (v, '\n' :: rest) := by
  have hstop : Stops isScalarChar ('\n' :: rest) := stops_cons (by decide)
  have hblank : ('\n' :: rest).head? ≠ some ' ' := by
    rw [List.head?_cons]
    decide
  rw [unquoted?, takeWhile_append_of_stops h.chars hstop, dropWhile_append_of_stops h.chars hstop]
  simp only [hblank, false_and, and_false, if_false, h.scalar, Option.map_some]

/-- A value that is read back is read from its line. -/
theorem value?_word {v : Value} (h : v.ReadsBack) (rest : List Char) (fuel : Nat) :
    value? (fuel + 1) ((inlineText v).toList ++ '\n' :: rest) = some (v, '\n' :: rest) := by
  have hword := unquoted?_word h rest
  obtain ⟨c, cs, hcs, hc⟩ := h.exists_cons
  have hother : c ≠ '"' ∧ c ≠ '\'' ∧ c ≠ '[' ∧ c ≠ '\x7b' := by
    refine ⟨?_, ?_, ?_, ?_⟩ <;> rintro rfl <;> cases hc
  rw [hcs, List.cons_append] at hword ⊢
  unfold value?
  split <;> simp_all

/-- A character that is neither a blank nor the beginning of a comment or a line break. -/
def isVisible (c : Char) : Bool := !isBlankOrBreak c && c != '#'

/-- A visible character is no blank, no break and no start of a comment. -/
theorem isVisible_iff {c : Char} :
    isVisible c = true ↔ isBlank c = false ∧ c ≠ '\n' ∧ c ≠ '\r' ∧ c ≠ '#' := by
  simp [isVisible, isBlankOrBreak, and_assoc]

theorem skipComment_of_ne {c : Char} (h : c ≠ '#') (cs : List Char) :
    skipComment (c :: cs) = c :: cs := by
  unfold skipComment
  split <;> simp_all

theorem dropBreak?_of_ne {c : Char} (hn : c ≠ '\n') (hr : c ≠ '\r') (cs : List Char) :
    dropBreak? (c :: cs) = none := by
  unfold dropBreak?
  split <;> simp_all

/-- Nothing is skipped in front of a visible character. -/
theorem skipLines_of_isVisible {c : Char} (hc : isVisible c = true) (cs : List Char) (fuel : Nat) :
    skipLines fuel (c :: cs) = c :: cs := by
  obtain ⟨hblank, hn, hr, hcomment⟩ := isVisible_iff.1 hc
  cases fuel with
  | zero => rfl
  | succ fuel =>
    simp only [skipLines, skipBlanks_eq (stops_cons hblank), skipComment_of_ne hcomment,
      dropBreak?_of_ne hn hr]

/-- The empty list is read from its line. -/
theorem value?_nothing (rest : List Char) (fuel : Nat) :
    value? (fuel + 2) ((inlineText (.array [])).toList ++ '\n' :: rest) =
      some (.array [], '\n' :: rest) := by
  have htext : (inlineText (.array [])).toList = ['[', ']'] := by
    simp [inlineText, inlineItems]
  have hskip : skipLines (']' :: '\n' :: rest).length (']' :: '\n' :: rest) =
      ']' :: '\n' :: rest := skipLines_of_isVisible (by decide) _ _
  rw [htext, List.cons_append, List.cons_append, List.nil_append, value?, items?, hskip]
  rfl

/-- A plain value is read up to the end of its line. -/
theorem value?_plain {v : Value} (h : v.Plain) (rest : List Char) (fuel : Nat) :
    value? (fuel + 2) ((inlineText v).toList ++ '\n' :: rest) = some (v, '\n' :: rest) := by
  cases h with
  | word h => exact value?_word h rest (fuel + 1)
  | nothing => exact value?_nothing rest fuel

/-- No blank stands in front of a plain value. -/
theorem Value.Plain.stops_isBlank {v : Value} (h : v.Plain) (rest : List Char) :
    Stops isBlank ((inlineText v).toList ++ '\n' :: rest) := by
  cases h with
  | word h =>
    obtain ⟨c, cs, hcs, hc⟩ := h.exists_cons
    rw [hcs]
    refine stops_cons (Bool.eq_false_iff.2 fun hblank => ?_)
    have hcases : c = ' ' ∨ c = '\t' := by simpa [isBlank] using hblank
    rcases hcases with rfl | rfl <;> cases hc
  | nothing =>
    rw [inlineText, String.toList_append, String.toList_append]
    exact stops_cons (by decide)

/-! ## Lines -/

namespace Statement

/-- The path that a statement names. -/
def path : Statement → List String
  | header path | arrayHeader path | assign path _ => path

/-- A statement without its line breaks. -/
def body : Statement → List Char
  | header path => '[' :: (pathChars path ++ [']'])
  | arrayHeader path => '[' :: '[' :: (pathChars path ++ [']', ']'])
  | assign path v => pathChars path ++ ' ' :: '=' :: ' ' :: (inlineText v).toList

/-- A statement as its line, with a blank line before a header. -/
def line : Statement → List Char
  | assign path v => (assign path v).body ++ ['\n']
  | s => '\n' :: (s.body ++ ['\n'])

/-- All keys of a statement are bare, and its value is plain. -/
structure Simple (s : Statement) : Prop where
  path : IsBarePath s.path
  plain : ∀ path v, s = assign path v → v.Plain

end Statement

/-- A path begins with a character of a bare key. -/
theorem IsBarePath.exists_cons {path : List String} (h : IsBarePath path) :
    ∃ c cs, pathChars path = c :: cs ∧ isBareKeyChar c = true := by
  obtain ⟨key, path, rfl⟩ := List.exists_cons_of_ne_nil h.1
  obtain ⟨c, cs, hcs, hc⟩ := (h.2 key List.mem_cons_self).exists_cons
  cases path with
  | nil => exact ⟨c, cs, hcs, hc⟩
  | cons next path => exact ⟨c, _, by rw [pathChars, hcs, List.cons_append]; simp, hc⟩

/-- A path is at least as long as it has keys, so the fuel of its reader suffices. -/
theorem length_le_pathChars {path : List String} (h : ∀ key ∈ path, IsBareKey key) :
    path.length ≤ (pathChars path).length := by
  induction path with
  | nil => exact Nat.zero_le _
  | cons key path ih =>
    have hkey := List.length_pos_iff.2 (h key List.mem_cons_self).1
    have hle := ih fun k hk => h k (List.mem_cons_of_mem _ hk)
    cases path with
    | nil => exact hkey
    | cons next path =>
      rw [pathChars]
      · simp only [List.length_append, List.length_cons] at hkey hle ⊢
        omega
      · exact List.cons_ne_nil _ _

namespace Statement

/-- The line of a header is read as the header. -/
theorem statement?_header {path : List String} (hpath : IsBarePath path) (rest : List Char) :
    statement? ((header path).body ++ '\n' :: rest) = some (header path, '\n' :: rest) := by
  have hlength := length_le_pathChars hpath.2
  have hread : path? (pathChars path ++ ']' :: '\n' :: rest).length
      (pathChars path ++ ']' :: '\n' :: rest) = some (path, ']' :: '\n' :: rest) :=
    path?_pathChars hpath (stops_cons (by decide)) (by simp [skipBlanks, isBlank])
      (by rw [List.length_append]; omega)
  obtain ⟨c, cs, hcs, hc⟩ := hpath.exists_cons
  have hbracket : c ≠ '[' := by rintro rfl; cases hc
  have htext : (header path).body ++ '\n' :: rest =
      '[' :: (pathChars path ++ ']' :: '\n' :: rest) := by
    simp [body]
  rw [htext]
  unfold statement?
  split
  · simp_all
  · rename_i heq
    obtain rfl := (List.cons.inj heq).2
    rw [hread]
    rfl
  · simp_all

/-- The line of a header of a list is read as this header. -/
theorem statement?_arrayHeader {path : List String} (hpath : IsBarePath path) (rest : List Char) :
    statement? ((arrayHeader path).body ++ '\n' :: rest) =
      some (arrayHeader path, '\n' :: rest) := by
  have hlength := length_le_pathChars hpath.2
  have hread : path? (pathChars path ++ ']' :: ']' :: '\n' :: rest).length
      (pathChars path ++ ']' :: ']' :: '\n' :: rest) = some (path, ']' :: ']' :: '\n' :: rest) :=
    path?_pathChars hpath (stops_cons (by decide)) (by simp [skipBlanks, isBlank])
      (by rw [List.length_append]; omega)
  have htext : (arrayHeader path).body ++ '\n' :: rest =
      '[' :: '[' :: (pathChars path ++ ']' :: ']' :: '\n' :: rest) := by
    simp [body]
  rw [htext, statement?, hread]
  rfl

/-- The line of an assignment is read as the assignment. -/
theorem statement?_assign {path : List String} {v : Value} (hpath : IsBarePath path)
    (hv : v.Plain) (rest : List Char) :
    statement? ((assign path v).body ++ '\n' :: rest) = some (assign path v, '\n' :: rest) := by
  have hlength := length_le_pathChars hpath.2
  have htext : (assign path v).body ++ '\n' :: rest =
      pathChars path ++ ' ' :: '=' :: ' ' :: ((inlineText v).toList ++ '\n' :: rest) := by
    simp [body]
  have hread : path? (pathChars path ++ ' ' :: '=' :: ' ' ::
        ((inlineText v).toList ++ '\n' :: rest)).length
      (pathChars path ++ ' ' :: '=' :: ' ' :: ((inlineText v).toList ++ '\n' :: rest)) =
        some (path, '=' :: ' ' :: ((inlineText v).toList ++ '\n' :: rest)) :=
    path?_pathChars hpath (stops_cons (by decide)) (by simp [skipBlanks, isBlank])
      (by rw [List.length_append]; omega)
  have hblank : skipBlanks (' ' :: ((inlineText v).toList ++ '\n' :: rest)) =
      (inlineText v).toList ++ '\n' :: rest := skipBlanks_eq (hv.stops_isBlank rest)
  have hvalue : value? (' ' :: ((inlineText v).toList ++ '\n' :: rest)).length
      ((inlineText v).toList ++ '\n' :: rest) = some (v, '\n' :: rest) := by
    have hfuel : (' ' :: ((inlineText v).toList ++ '\n' :: rest)).length =
        ((inlineText v).toList.length + rest.length) + 2 := by
      simp only [List.length_cons, List.length_append]
      omega
    rw [hfuel, value?_plain hv]
  obtain ⟨c, cs, hcs, hc⟩ := hpath.exists_cons
  have hbracket : c ≠ '[' := by rintro rfl; cases hc
  rw [htext]
  unfold statement?
  split
  · simp_all
  · simp_all
  · rw [hread]
    simp only [Option.bind_eq_bind, Option.bind_some, hblank, hvalue]
    rfl

/-- A line is read as the statement that it writes. -/
theorem Simple.statement?_body {s : Statement} (h : s.Simple) (rest : List Char) :
    statement? (s.body ++ '\n' :: rest) = some (s, '\n' :: rest) := by
  obtain ⟨hpath, hplain⟩ := h
  cases s with
  | header path => exact statement?_header hpath rest
  | arrayHeader path => exact statement?_arrayHeader hpath rest
  | assign path v => exact statement?_assign hpath (hplain path v rfl) rest

/-- A line begins with a visible character. -/
theorem Simple.exists_cons {s : Statement} (h : s.Simple) :
    ∃ c cs, s.body = c :: cs ∧ isVisible c = true := by
  cases s with
  | header path => exact ⟨_, _, rfl, by decide⟩
  | arrayHeader path => exact ⟨_, _, rfl, by decide⟩
  | assign path v =>
    obtain ⟨c, cs, hcs, hc⟩ := h.path.exists_cons
    refine ⟨c, cs ++ ' ' :: '=' :: ' ' :: (inlineText v).toList, ?_, ?_⟩
    · rw [body, show pathChars path = c :: cs from hcs, List.cons_append]
    · refine isVisible_iff.2 ⟨isBlank_of_isBareKeyChar hc, ?_, ?_, ?_⟩ <;> rintro rfl <;> cases hc

theorem length_line_append (s : Statement) (rest : List Char) : 1 ≤ (s.line ++ rest).length := by
  cases s <;> simp only [line, List.length_append, List.length_cons] <;> omega

/-- Nothing is skipped in front of a statement without its line breaks. -/
theorem Simple.skipLines_body {s : Statement} (h : s.Simple) (rest : List Char) (fuel : Nat) :
    skipLines fuel (s.body ++ rest) = s.body ++ rest := by
  obtain ⟨c, cs, hcs, hc⟩ := h.exists_cons
  rw [hcs, List.cons_append]
  exact skipLines_of_isVisible hc _ _

/-- The line breaks in front of a statement are skipped. -/
theorem Simple.skipLines_line {s : Statement} (h : s.Simple) (rest : List Char) (fuel : Nat) :
    skipLines (fuel + 1) (s.line ++ rest) = s.body ++ '\n' :: rest := by
  have hbreak : skipLines (fuel + 1) ('\n' :: (s.body ++ '\n' :: rest)) =
      s.body ++ '\n' :: rest := by
    rw [skipLines, skipBlanks_eq (stops_cons (by decide))]
    exact h.skipLines_body _ fuel
  cases s with
  | header path | arrayHeader path =>
    rw [line, List.cons_append, List.append_assoc]
    · exact hbreak
    · simp
  | assign path v =>
    rw [line, List.append_assoc]
    exact h.skipLines_body _ _

/-- No line begins with a byte order mark. -/
theorem Simple.skipByteOrderMark_line {s : Statement} (h : s.Simple) (rest : List Char) :
    skipByteOrderMark (s.line ++ rest) = s.line ++ rest := by
  obtain ⟨c, cs, hcs, hc⟩ : ∃ c cs, s.line = c :: cs ∧ c ≠ '\ufeff' := by
    cases s with
    | header path | arrayHeader path => exact ⟨_, _, rfl, by decide⟩
    | assign path v =>
      obtain ⟨c, cs, hcs, hc⟩ := h.path.exists_cons
      refine ⟨c, _, by rw [line, body, show pathChars path = c :: cs from hcs]; rfl, ?_⟩
      rintro rfl
      cases hc
  rw [hcs, List.cons_append]
  unfold skipByteOrderMark
  split <;> simp_all

end Statement

/-- Once the line breaks are skipped, a statement and the lines after it are read. -/
theorem statements?_cons {s : Statement} (hs : s.Simple) {ss : List Statement} {fuel : Nat}
    {cs : List Char} (hcs : skipLines cs.length cs = s.body ++ '\n' :: ss.flatMap Statement.line)
    (hss : statements? fuel (ss.flatMap Statement.line) = some ss) :
    statements? (fuel + 1) cs = some (s :: ss) := by
  have hread := hs.statement?_body (ss.flatMap Statement.line)
  obtain ⟨c, body, hbody, -⟩ := hs.exists_cons
  have hblank : skipBlanks ('\n' :: ss.flatMap Statement.line) =
      '\n' :: ss.flatMap Statement.line := skipBlanks_eq (stops_cons (by decide))
  rw [statements?, hcs]
  rw [hbody, List.cons_append] at hread ⊢
  simp only [hread, hblank, skipComment_of_ne (show '\n' ≠ '#' by decide), dropBreak?, hss,
    Option.bind_eq_bind, Option.bind_some]
  rfl

/-- The lines of simple statements are read as these statements. -/
theorem statements?_eq {ss : List Statement} (h : ∀ s ∈ ss, s.Simple) {fuel : Nat}
    (hfuel : ss.length < fuel) : statements? fuel (ss.flatMap Statement.line) = some ss := by
  induction ss generalizing fuel with
  | nil =>
    obtain ⟨fuel, rfl⟩ := Nat.exists_eq_add_of_le' hfuel
    rfl
  | cons s ss ih =>
    obtain ⟨fuel, rfl⟩ := Nat.exists_eq_add_of_le' (Nat.zero_lt_of_lt hfuel)
    have hs := h s List.mem_cons_self
    obtain ⟨k, hk⟩ := Nat.exists_eq_add_of_le' (s.length_line_append (ss.flatMap Statement.line))
    refine statements?_cons hs ?_
      (ih (fun t ht => h t (List.mem_cons_of_mem _ ht)) (Nat.lt_of_succ_lt_succ hfuel))
    rw [List.flatMap_cons, hk, hs.skipLines_line]

/-- There are at least as many characters as lines, so the fuel of the reader suffices. -/
theorem length_le_lines (ss : List Statement) :
    ss.length ≤ (ss.flatMap Statement.line).length := by
  induction ss with
  | nil => exact Nat.zero_le _
  | cons s ss ih =>
    have hline := s.length_line_append []
    simp only [List.append_nil] at hline
    simp only [List.flatMap_cons, List.length_append, List.length_cons]
    omega

/-- A text of simple lines is read as the table that its statements make. -/
theorem parse?_eq {ss : List Statement} (h : ∀ s ∈ ss, s.Simple) {text : String}
    (htext : text.toList = ss.flatMap Statement.line) : parse? text = document? ss := by
  have hmark : skipByteOrderMark (ss.flatMap Statement.line) = ss.flatMap Statement.line := by
    cases ss with
    | nil => rfl
    | cons s ss => exact (h s List.mem_cons_self).skipByteOrderMark_line _
  rw [parse?, htext, hmark]
  simp only [statements?_eq h (Nat.lt_succ_of_le (length_le_lines ss)), Option.bind_some]

/-- The blank line in front of a first header may be missing. -/
theorem parse?_eq_of_cons {ss : List Statement} (h : ∀ s ∈ ss, s.Simple) {text : String}
    (htext : '\n' :: text.toList = ss.flatMap Statement.line) : parse? text = document? ss := by
  cases ss with
  | nil => cases htext
  | cons s ss =>
    have hs := h s List.mem_cons_self
    have hrest : ∀ t ∈ ss, t.Simple := fun t ht => h t (List.mem_cons_of_mem _ ht)
    obtain ⟨hlist, hmark⟩ : text.toList = s.body ++ '\n' :: ss.flatMap Statement.line ∧
        skipByteOrderMark text.toList = text.toList := by
      rw [List.flatMap_cons] at htext
      cases s with
      | header path | arrayHeader path =>
        have hlist : text.toList = _ ++ '\n' :: ss.flatMap Statement.line :=
          (List.cons.inj htext).2.trans (List.append_assoc _ ['\n'] _)
        exact ⟨hlist, by rw [hlist]; rfl⟩
      | assign path v =>
        -- an assignment has no blank line in front of it
        obtain ⟨c, cs, hcs, hc⟩ := hs.exists_cons
        rw [Statement.line, hcs] at htext
        obtain rfl : '\n' = c := (List.cons.inj htext).1
        cases hc
    have hlength : ss.length < text.toList.length := by
      have hle := length_le_lines ss
      rw [hlist, List.length_append, List.length_cons]
      omega
    have hskip : skipLines text.toList.length text.toList =
        s.body ++ '\n' :: ss.flatMap Statement.line := by
      rw [hlist]
      exact hs.skipLines_body _ _
    have hread := statements?_cons hs hskip (statements?_eq hrest hlength)
    rw [parse?, hmark]
    simp only [hread, Option.bind_some]

end GraphQubo.Toml
