import Tefs.Proxy.ConfRoundTrip

/-! # The words of a configuration

A grammar of white space, words and the characters behind them, which says nothing about a reader, and that
`gvfs_conf_read_token` takes a token of it off every text.

Where a word without quotes ends is left open in the grammar: the reader asks for white space, `;` and `{`, and comes to
that question with the first two only.
-/

namespace Tefs.Proxy.ConfFile
set_option autoImplicit false

/-! ## Characters and words -/

/-- White space and comments, each up to the end of its line -/
inductive Layout : List Byte → Prop
  | nil : Layout []
  | blank {layout : List Byte} {ch : Byte} : Layout layout → Blank ch → Layout (layout ++ [ch])
  | comment {layout line : List Byte} : Layout layout → byte '\n' ∉ line →
      Layout (layout ++ byte '#' :: line ++ [byte '\n'])

/-- Characters of a word: each is `plain`, or stands behind a backslash. -/
inductive Chars (plain : Byte → Prop) : List Byte → Prop
  | nil : Chars plain []
  | plain {raw : List Byte} {ch : Byte} : Chars plain raw → ch ≠ byte '\\' → plain ch → Chars plain (raw ++ [ch])
  | escaped {raw : List Byte} (ch : Byte) : Chars plain raw → Chars plain (raw ++ [byte '\\'] ++ [ch])

abbrev Quote (ch : Byte) : Prop := ch = byte '"' ∨ ch = byte '\''

/-- No word begins with it, if it does not stand in quotes. -/
abbrev Special (ch : Byte) : Prop :=
  Blank ch ∨ ch = byte ';' ∨ ch = byte '{' ∨ ch = byte '}' ∨ ch = byte '#' ∨ Quote ch

/-- A word that the characters of `stops` end -/
structure Bare (stops : Byte → Prop) (word : List Byte) : Prop where
  chars : Chars (fun ch => ¬ stops ch) word
  first : ∃ ch rest, word = ch :: rest ∧ ¬ Special ch

inductive Quoted : List Byte → Prop
  | mk {quote : Byte} {raw : List Byte} : Quote quote → Chars (· ≠ quote) raw → Quoted (quote :: raw ++ [quote])

/-- `n` words of a directive, with what is between them and behind the last -/
inductive Leading (stops : Byte → Prop) : ℕ → List Byte → Prop
  | layout {layout : List Byte} : Layout layout → Leading stops 0 layout
  | word {n : ℕ} {words word layout : List Byte} {ch : Byte} : Leading stops n words → Bare stops word ∨ Quoted word →
      Blank ch → Layout layout → Leading stops (n + 1) (words ++ word ++ ch :: layout)

/-- The words of a directive, up to the character `ch` -/
inductive Phrase (stops : Byte → Prop) (ch : Byte) : List Byte → Prop
  | spaced {n : ℕ} {words : List Byte} : Leading stops (n + 1) words → Phrase stops ch words
  | bare {n : ℕ} {words word : List Byte} : Leading stops n words → Bare stops word → stops ch →
      Phrase stops ch (words ++ word)
  | quoted {n : ℕ} {words word : List Byte} : Leading stops n words → Quoted word → Phrase stops ch (words ++ word)

/-- An error, with the character that makes it one: a terminator without a word, a closing brace behind words, or no
separator behind a quote -/
inductive Fault (stops : Byte → Prop) : List Byte → Prop
  | terminator {layout : List Byte} {ch : Byte} : Layout layout → ch = byte ';' ∨ ch = byte '{' →
      Fault stops (layout ++ [ch])
  | brace {n : ℕ} {words : List Byte} : Leading stops (n + 1) words → Fault stops (words ++ [byte '}'])
  | joined {n : ℕ} {words word : List Byte} {ch : Byte} : Leading stops n words → Quoted word → ¬ Blank ch →
      ch ≠ byte ';' → ch ≠ byte '{' → Fault stops (words ++ word ++ [ch])

/-- Nothing, or a comment without the end of its line -/
inductive LastLine : List Byte → Prop
  | nil : LastLine []
  | comment {line : List Byte} : byte '\n' ∉ line → LastLine (byte '#' :: line)

/-- Characters of a word, the last of which may be a backslash with nothing behind it -/
inductive Begun (plain : Byte → Prop) : List Byte → Prop
  | chars {raw : List Byte} : Chars plain raw → Begun plain raw
  | backslash {raw : List Byte} : Chars plain raw → Begun plain (raw ++ [byte '\\'])

/-- The words of a directive that the end of the text cuts off: behind a word, in one, in quotes, or behind them -/
inductive Cut (stops : Byte → Prop) : List Byte → Prop
  | spaced {n : ℕ} {words line : List Byte} : Leading stops (n + 1) words → LastLine line → Cut stops (words ++ line)
  | bare {n : ℕ} {words word : List Byte} : Leading stops n words → Begun (fun ch => ¬ stops ch) word →
      (∃ ch rest, word = ch :: rest ∧ ¬ Special ch) → Cut stops (words ++ word)
  | quote {n : ℕ} {words raw : List Byte} {quote : Byte} : Leading stops n words → Quote quote →
      Begun (· ≠ quote) raw → Cut stops (words ++ quote :: raw)
  | quoted {n : ℕ} {words word : List Byte} : Leading stops n words → Quoted word → Cut stops (words ++ word)

/-- What ends a word for the reader -/
abbrev Separates (ch : Byte) : Prop := Blank ch ∨ ch = byte ';'

/-- A text, the token at its beginning, and what is behind that -/
inductive Lexeme : Code → List Byte → List Byte → Prop
  | next {words : List Byte} (rest : List Byte) : Phrase Separates (byte ';') words →
      Lexeme .next (words ++ byte ';' :: rest) rest
  | blockStart {words : List Byte} (rest : List Byte) : Phrase Separates (byte '{') words →
      Lexeme .blockStart (words ++ byte '{' :: rest) rest
  | blockDone {layout : List Byte} (rest : List Byte) : Layout layout →
      Lexeme .blockDone (layout ++ byte '}' :: rest) rest
  | fault {fault : List Byte} (rest : List Byte) : Fault Separates fault → Lexeme .error (fault ++ rest) rest
  | cut {text : List Byte} : Cut Separates text → Lexeme .error text []
  | atEnd {layout line : List Byte} : Layout layout → LastLine line → Lexeme .atEnd (layout ++ line) []

/-! ## The flags behind a part of a token -/

/-- The three ways to write a word -/
inductive Style
  | bare
  | double
  | single

/-- The flags in a word with the characters `raw` -/
def Style.scan (style : Style) (stg : List Word) (raw : List Byte) : Scan :=
  match style with
  | .bare => { lastSpace := false, raw := raw, stg := stg }
  | .double => { lastSpace := false, dQuoted := true, raw := raw, stg := stg }
  | .single => { lastSpace := false, sQuoted := true, raw := raw, stg := stg }

/-- The flags behind a backslash in a word -/
def Style.slash (style : Style) (stg : List Word) (raw : List Byte) : Scan :=
  { style.scan stg raw with quoted := true }

def Style.plain : Style → Byte → Prop
  | .bare => fun ch => ¬ Separates ch
  | .double => (· ≠ byte '"')
  | .single => (· ≠ byte '\'')

/-- What a word begins with -/
def Style.opening : Style → List Byte
  | .bare => []
  | .double => [byte '"']
  | .single => [byte '\'']

/-- A word without quotes has a first character. -/
def Style.Opened : Style → List Byte → Prop
  | .bare => fun raw => ∃ ch rest, raw = ch :: rest ∧ ¬ Special ch
  | _ => fun _ => True

section

variable {stg : List Word} {ch : Byte} {raw : List Byte} {style : Style}

theorem Style.step_plain (hslash : ch ≠ byte '\\') (hplain : style.plain ch) :
    (style.scan stg raw).step ch = .more (style.scan stg (raw ++ [ch])) := by
  by_cases hbrace : ch = byte '{'
  · cases style <;> simp [Style.scan, Scan.step, Scan.stepWord, hbrace]
  · cases style with
    | bare =>
      obtain ⟨hblank, hend⟩ := not_or.mp hplain
      simp [Style.scan, Scan.step, Scan.stepWord, hslash, hbrace, hblank, hend]
    | double =>
      have hquote : ch ≠ byte '"' := hplain
      simp [Style.scan, Scan.step, Scan.stepWord, hslash, hbrace, hquote]
    | single =>
      have hquote : ch ≠ byte '\'' := hplain
      simp [Style.scan, Scan.step, Scan.stepWord, hslash, hbrace, hquote]

theorem Style.step_slash : (style.scan stg raw).step (byte '\\') = .more (style.slash stg (raw ++ [byte '\\'])) := by
  cases style <;> rfl

theorem Style.slash_step : (style.slash stg raw).step ch = .more (style.scan stg (raw ++ [ch])) := by
  cases style <;> simp [Style.slash, Style.scan, Scan.step]

/-- The quote behind a word -/
theorem Style.step_quote (style : Style) (stg : List Word) (raw : List Byte) {quote : Byte}
    (hquote : style.opening = [quote]) :
    ∃ word, (style.scan stg raw).step quote = .more (closed (stg ++ [word])) := by
  cases style with
  | bare => cases hquote
  | double =>
    cases hquote
    exact ⟨_, rfl⟩
  | single =>
    cases hquote
    exact ⟨_, rfl⟩

theorem step_bare_blank (stg : List Word) (raw : List Byte) (hblank : Blank ch) :
    ∃ word, (Style.bare.scan stg raw).step ch = .more (between (stg ++ [word])) := by
  rcases hblank with rfl | rfl | rfl | rfl <;> exact ⟨_, rfl⟩

theorem step_bare_end (stg : List Word) (raw : List Byte) :
    ∃ word, (Style.bare.scan stg raw).step (byte ';') = .token .next (stg ++ [word]) :=
  ⟨_, rfl⟩

/-- The first character of a word without quotes -/
theorem step_between_bare (hspecial : ¬ Special ch) (hslash : ch ≠ byte '\\') :
    (between stg).step ch = .more (Style.bare.scan stg [ch]) := by
  obtain ⟨hblank, hend, hopen, hclose, hsharp, hdouble, hsingle⟩ : ¬ Blank ch ∧ ch ≠ byte ';' ∧ ch ≠ byte '{' ∧
      ch ≠ byte '}' ∧ ch ≠ byte '#' ∧ ch ≠ byte '"' ∧ ch ≠ byte '\'' := by
    simpa [Special, Quote, not_or] using hspecial
  simp [Scan.step, Scan.stepSpace, Style.scan, hblank, hend, hopen, hclose, hsharp, hslash, hdouble, hsingle]

theorem step_between_slash : (between stg).step (byte '\\') = .more (Style.bare.slash stg [byte '\\']) := by
  rfl

theorem step_between_quote (style : Style) {quote : Byte} (hquote : style.opening = [quote]) :
    (between stg).step quote = .more (style.scan stg []) := by
  cases style with
  | bare => cases hquote
  | double =>
    cases hquote
    rfl
  | single =>
    cases hquote
    rfl

end

/-! ## Every token of the grammar is read -/

section

variable {stg : List Word} {style : Style}

theorem readToken_layout {layout : List Byte} (h : Layout layout) (stg : List Word) (text : List Byte) :
    readToken (between stg) (layout ++ text) = readToken (between stg) text := by
  induction h generalizing text with
  | nil => rfl
  | @blank layout ch _ hblank ih =>
    rw [List.append_assoc, ih, List.singleton_append, readToken_more (step_between_blank hblank)]
  | @comment layout line _ hline ih =>
    have hhash : (between stg).step (byte '#') = .more (comment stg) := by rfl
    rw [List.append_assoc, List.append_assoc, ih, List.cons_append, readToken_more hhash, List.singleton_append,
      readToken_comment hline, readToken_more (step_between_blank (.inr (.inr (.inr rfl))))]

theorem readToken_chars {raw : List Byte} (h : Chars style.plain raw) (stg : List Word) (acc text : List Byte) :
    readToken (style.scan stg acc) (raw ++ text) = readToken (style.scan stg (acc ++ raw)) text := by
  induction h generalizing text with
  | nil => rw [List.nil_append, List.append_nil]
  | plain _ hslash hplain ih =>
    rw [List.append_assoc, ih, List.singleton_append, readToken_more (style.step_plain hslash hplain),
      List.append_assoc]
  | escaped ch _ ih =>
    rw [List.append_assoc, List.append_assoc, ih, List.singleton_append, readToken_more style.step_slash,
      List.singleton_append, readToken_more style.slash_step]
    simp only [List.append_assoc]

/-- The first character of a word without quotes is read as the others are. -/
theorem readToken_bare {word : List Byte} (hchars : Chars Style.bare.plain word) (hfirst : Style.bare.Opened word)
    (stg : List Word) (text : List Byte) :
    readToken (between stg) (word ++ text) = readToken (Style.bare.scan stg word) text := by
  obtain ⟨first, rest, hword, hspecial⟩ := hfirst
  induction hchars generalizing rest text with
  | nil => cases hword
  | @plain raw ch _ hslash hplain ih =>
    cases raw with
    | nil =>
      cases hword
      exact readToken_more (step_between_bare hspecial hslash)
    | cons ch' raw =>
      cases hword
      rw [List.append_assoc, ih _ _ rfl, List.singleton_append, readToken_more (Style.bare.step_plain hslash hplain)]
  | @escaped raw ch _ ih =>
    rw [List.append_assoc, List.append_assoc]
    cases raw with
    | nil =>
      rw [List.nil_append, List.singleton_append, readToken_more step_between_slash, List.singleton_append,
        readToken_more Style.bare.slash_step]
      rfl
    | cons ch' raw =>
      cases hword
      rw [ih _ _ rfl, List.singleton_append, readToken_more Style.bare.step_slash, List.singleton_append,
        readToken_more Style.bare.slash_step]

theorem Quoted.exists_style {word : List Byte} (h : Quoted word) : ∃ (style : Style) (quote : Byte) (raw : List Byte),
    style.opening = [quote] ∧ Chars style.plain raw ∧ word = quote :: raw ++ [quote] := by
  cases h with
  | mk hquote hchars =>
    rcases hquote with rfl | rfl
    · exact ⟨.double, _, _, rfl, hchars, rfl⟩
    · exact ⟨.single, _, _, rfl, hchars, rfl⟩

theorem readToken_quoted {word : List Byte} (h : Quoted word) (stg : List Word) :
    ∃ value, ∀ text, readToken (between stg) (word ++ text) = readToken (closed (stg ++ [value])) text := by
  obtain ⟨style, quote, raw, hquote, hchars, rfl⟩ := h.exists_style
  obtain ⟨value, hstep⟩ := style.step_quote stg raw hquote
  refine ⟨value, fun text => ?_⟩
  rw [List.cons_append, List.cons_append, readToken_more (step_between_quote style hquote), List.append_assoc,
    readToken_chars hchars, List.nil_append, List.singleton_append, readToken_more hstep]

/-- Behind words and white space no flag but `last_space` is set. -/
theorem Leading.readToken {n : ℕ} {words : List Byte} (h : Leading Separates n words) : ∃ stg : List Word,
    stg.length = n ∧ ∀ text, readToken {} (words ++ text) = ConfFile.readToken (between stg) text := by
  induction h with
  | layout hlayout => exact ⟨[], rfl, readToken_layout hlayout []⟩
  | @word n words word layout ch _ hword hblank hlayout ih =>
    obtain ⟨stg, hlen, hread⟩ := ih
    rcases hword with hbare | hquoted
    · obtain ⟨value, hstep⟩ := step_bare_blank stg word hblank
      refine ⟨stg ++ [value], by rw [List.length_append, hlen, List.length_singleton], fun text => ?_⟩
      rw [List.append_assoc, List.append_assoc, hread, readToken_bare hbare.chars hbare.first, List.cons_append,
        readToken_more hstep, readToken_layout hlayout]
    · obtain ⟨value, hvalue⟩ := readToken_quoted hquoted stg
      refine ⟨stg ++ [value], by rw [List.length_append, hlen, List.length_singleton], fun text => ?_⟩
      rw [List.append_assoc, List.append_assoc, hread, hvalue, List.cons_append,
        readToken_more (step_closed_blank hblank), readToken_layout hlayout]

/-- What the terminator of a directive makes of its words -/
theorem Phrase.readToken {ch : Byte} {code : Code} {words : List Byte} (h : Phrase Separates ch words)
    (hch : ch = byte ';' ∧ code = .next ∨ ch = byte '{' ∧ code = .blockStart) :
    ∃ stg, ∀ rest, ConfFile.readToken {} (words ++ ch :: rest) = (code, stg, rest) := by
  cases h with
  | spaced hwords =>
    obtain ⟨stg, hlen, hread⟩ := hwords.readToken
    obtain ⟨word, stg, rfl⟩ := List.exists_cons_of_length_eq_add_one hlen
    refine ⟨word :: stg, fun rest => ?_⟩
    rw [hread]
    apply readToken_token
    rcases hch with ⟨rfl, rfl⟩ | ⟨rfl, rfl⟩ <;> rfl
  | @bare n words word hwords hbare hsep =>
    obtain ⟨stg, -, hread⟩ := hwords.readToken
    rcases hch with ⟨rfl, rfl⟩ | ⟨rfl, -⟩
    · obtain ⟨value, hstep⟩ := step_bare_end stg word
      refine ⟨stg ++ [value], fun rest => ?_⟩
      rw [List.append_assoc, hread, readToken_bare hbare.chars hbare.first, readToken_token hstep]
    · exact absurd hsep (by decide)
  | @quoted n words word hwords hquoted =>
    obtain ⟨stg, -, hread⟩ := hwords.readToken
    obtain ⟨value, hvalue⟩ := readToken_quoted hquoted stg
    refine ⟨stg ++ [value], fun rest => ?_⟩
    rw [List.append_assoc, hread, hvalue]
    apply readToken_token
    rcases hch with ⟨rfl, rfl⟩ | ⟨rfl, rfl⟩ <;> rfl

theorem Fault.readToken {fault : List Byte} (h : Fault Separates fault) :
    ∃ stg, ∀ rest, ConfFile.readToken {} (fault ++ rest) = (.error, stg, rest) := by
  cases h with
  | terminator hlayout hch =>
    refine ⟨[], fun rest => ?_⟩
    rw [List.append_assoc, readToken_layout hlayout]
    apply readToken_token
    rcases hch with rfl | rfl <;> rfl
  | brace hwords =>
    obtain ⟨stg, hlen, hread⟩ := hwords.readToken
    obtain ⟨word, stg, rfl⟩ := List.exists_cons_of_length_eq_add_one hlen
    refine ⟨word :: stg, fun rest => ?_⟩
    rw [List.append_assoc, hread]
    rfl
  | joined hwords hquoted hblank hend hopen =>
    obtain ⟨stg, -, hread⟩ := hwords.readToken
    obtain ⟨value, hvalue⟩ := readToken_quoted hquoted stg
    refine ⟨stg ++ [value], fun rest => ?_⟩
    rw [List.append_assoc, List.append_assoc, hread, hvalue]
    apply readToken_token
    simp [Scan.step, Scan.stepNeeded, hblank, hend, hopen]

/-- A word has begun, or one has been read: the end of the text is an error. -/
theorem readToken_end {s : Scan} (h : 0 < s.stg.length ∨ s.lastSpace = false) :
    readToken s [] = (.error, s.stg, []) := by
  rw [readToken, if_pos h]

theorem Begun.readToken (style : Style) {raw : List Byte} (h : Begun style.plain raw) (stg : List Word) :
    ∃ stg', ConfFile.readToken (style.scan stg []) raw = (.error, stg', []) := by
  cases h with
  | chars hchars =>
    rw [← List.append_nil raw, readToken_chars hchars]
    exact ⟨_, readToken_end (.inr (by cases style <;> rfl))⟩
  | @backslash raw hchars =>
    rw [readToken_chars hchars, readToken_more style.step_slash]
    exact ⟨_, readToken_end (.inr (by cases style <;> rfl))⟩

theorem readToken_lastComment {line : List Byte} (h : byte '\n' ∉ line) (stg : List Word) :
    readToken (comment stg) line = (if 0 < stg.length then .error else .atEnd, stg, []) := by
  induction line with
  | nil => simp [readToken]
  | cons ch line ih =>
    obtain ⟨hch, hline⟩ := not_or.mp (mt List.mem_cons.mpr h)
    rw [readToken_more (step_comment (Ne.symm hch))]
    exact ih hline

theorem LastLine.readToken {line : List Byte} (h : LastLine line) (stg : List Word) :
    ConfFile.readToken (between stg) line = (if 0 < stg.length then .error else .atEnd, stg, []) := by
  cases h with
  | nil => simp [ConfFile.readToken]
  | comment hline =>
    have hhash : (between stg).step (byte '#') = .more (ConfFile.comment stg) := by rfl
    rw [readToken_more hhash, readToken_lastComment hline]

theorem Cut.readToken {text : List Byte} (h : Cut Separates text) :
    ∃ stg, ConfFile.readToken {} text = (.error, stg, []) := by
  cases h with
  | spaced hwords hline =>
    obtain ⟨stg, hlen, hread⟩ := hwords.readToken
    refine ⟨stg, ?_⟩
    rw [hread, hline.readToken, if_pos (by omega)]
  | @bare n words word hwords hbegun hfirst =>
    obtain ⟨stg, -, hread⟩ := hwords.readToken
    rw [hread]
    cases hbegun with
    | chars hchars =>
      rw [← List.append_nil word, readToken_bare hchars hfirst]
      exact ⟨_, readToken_end (.inr rfl)⟩
    | @backslash raw hchars =>
      cases raw with
      | nil =>
        rw [List.nil_append, readToken_more step_between_slash]
        exact ⟨_, readToken_end (.inr rfl)⟩
      | cons ch raw =>
        obtain ⟨first, rest, hword, hspecial⟩ := hfirst
        cases hword
        rw [readToken_bare hchars ⟨_, _, rfl, hspecial⟩, readToken_more Style.bare.step_slash]
        exact ⟨_, readToken_end (.inr rfl)⟩
  | quote hwords hquote hbegun =>
    obtain ⟨stg, -, hread⟩ := hwords.readToken
    rw [hread]
    rcases hquote with rfl | rfl
    · rw [readToken_more (step_between_quote .double rfl)]
      exact hbegun.readToken .double stg
    · rw [readToken_more (step_between_quote .single rfl)]
      exact hbegun.readToken .single stg
  | @quoted n words word hwords hquoted =>
    obtain ⟨stg, -, hread⟩ := hwords.readToken
    obtain ⟨value, hvalue⟩ := readToken_quoted hquoted stg
    rw [hread, ← List.append_nil word, hvalue]
    exact ⟨_, readToken_end (.inr rfl)⟩

theorem Lexeme.readToken {code : Code} {text rest : List Byte} (h : Lexeme code text rest) :
    ∃ stg, ConfFile.readToken {} text = (code, stg, rest) := by
  cases h with
  | next _ hwords =>
    obtain ⟨stg, hread⟩ := hwords.readToken (.inl ⟨rfl, rfl⟩)
    exact ⟨stg, hread rest⟩
  | blockStart _ hwords =>
    obtain ⟨stg, hread⟩ := hwords.readToken (.inr ⟨rfl, rfl⟩)
    exact ⟨stg, hread rest⟩
  | blockDone _ hlayout => exact ⟨[], readToken_layout hlayout [] _⟩
  | fault _ hfault =>
    obtain ⟨stg, hread⟩ := hfault.readToken
    exact ⟨stg, hread rest⟩
  | cut hcut => exact hcut.readToken
  | atEnd hlayout hline => exact ⟨[], (readToken_layout hlayout [] _).trans (hline.readToken [])⟩

end

/-! ## Every token that is read is one of the grammar -/

/-- The flags when the characters in front are all of the token that has been read -/
inductive Reached : Scan → List Byte → Prop
  | between {stg : List Word} {words : List Byte} : Leading Separates stg.length words → Reached (between stg) words
  | comment {stg : List Word} {words line : List Byte} : Leading Separates stg.length words → byte '\n' ∉ line →
      Reached (comment stg) (words ++ byte '#' :: line)
  | word {stg : List Word} {words raw : List Byte} (style : Style) : Leading Separates stg.length words →
      Chars style.plain raw → style.Opened raw → Reached (style.scan stg raw) (words ++ (style.opening ++ raw))
  | slash {stg : List Word} {words raw : List Byte} (style : Style) : Leading Separates stg.length words →
      Chars style.plain raw → style.Opened (raw ++ [byte '\\']) →
      Reached (style.slash stg (raw ++ [byte '\\'])) (words ++ (style.opening ++ (raw ++ [byte '\\'])))
  | closed {n : ℕ} {stg : List Word} {words word : List Byte} : Leading Separates n words → Quoted word →
      stg.length = n + 1 → Reached (closed stg) (words ++ word)

/-- What one more character makes of a part of a token -/
inductive Goes (read : List Byte) (ch : Byte) : Step → Prop
  | more {s : Scan} : Reached s (read ++ [ch]) → Goes read ch (.more s)
  | token {code : Code} (stg : List Word) : (∀ rest, Lexeme code (read ++ ch :: rest) rest) →
      Goes read ch (.token code stg)

theorem Leading.blank {stops : Byte → Prop} {n : ℕ} {words : List Byte} {ch : Byte} (h : Leading stops n words)
    (hblank : Blank ch) : Leading stops n (words ++ [ch]) := by
  cases h with
  | layout hlayout => exact .layout (hlayout.blank hblank)
  | word hwords hword hblank' hlayout =>
    rw [List.append_assoc, List.cons_append]
    exact .word hwords hword hblank' (hlayout.blank hblank)

theorem Leading.comment {stops : Byte → Prop} {n : ℕ} {words line : List Byte} (h : Leading stops n words)
    (hline : byte '\n' ∉ line) : Leading stops n (words ++ byte '#' :: line ++ [byte '\n']) := by
  cases h with
  | layout hlayout => exact .layout (hlayout.comment hline)
  | word hwords hword hblank hlayout =>
    have h := Leading.word hwords hword hblank (hlayout.comment hline)
    simpa only [List.append_assoc, List.cons_append] using h

theorem Leading.layout_of_zero {stops : Byte → Prop} {words : List Byte} (h : Leading stops 0 words) :
    Layout words := by
  cases h with
  | layout hlayout => exact hlayout

/-- A terminator: an error if there is no word in front of it -/
theorem goes_terminator {stg : List Word} {words : List Byte} (h : Leading Separates stg.length words) {ch : Byte}
    (hch : ch = byte ';' ∨ ch = byte '{') : Goes words ch ((between stg).step ch) := by
  cases stg with
  | nil =>
    have hstep : (between []).step ch = .token .error [] := by
      rcases hch with rfl | rfl <;> rfl
    rw [hstep]
    refine .token _ fun rest => ?_
    have hfault : Fault Separates _ := .terminator h.layout_of_zero hch
    simpa using Lexeme.fault rest hfault
  | cons word stg =>
    rcases hch with rfl | rfl
    · exact .token _ fun rest => .next rest (.spaced h)
    · exact .token _ fun rest => .blockStart rest (.spaced h)

/-- A closing brace: an error if there is a word in front of it -/
theorem goes_brace {stg : List Word} {words : List Byte} (h : Leading Separates stg.length words) :
    Goes words (byte '}') ((between stg).step (byte '}')) := by
  cases stg with
  | nil => exact .token _ fun rest => .blockDone rest h.layout_of_zero
  | cons word stg =>
    refine .token _ fun rest => ?_
    simpa using Lexeme.fault rest (.brace h)

theorem goes_between {stg : List Word} {words : List Byte} (h : Leading Separates stg.length words) (ch : Byte) :
    Goes words ch ((between stg).step ch) := by
  by_cases hspecial : Special ch
  · rcases hspecial with hblank | rfl | rfl | rfl | rfl | rfl | rfl
    · rw [step_between_blank hblank]
      exact .more (.between (h.blank hblank))
    · exact goes_terminator h (.inl rfl)
    · exact goes_terminator h (.inr rfl)
    · exact goes_brace h
    · exact .more (.comment h List.not_mem_nil)
    · exact .more (.word .double h .nil trivial)
    · exact .more (.word .single h .nil trivial)
  · by_cases hslash : ch = byte '\\'
    · subst hslash
      exact .more (.slash .bare h .nil ⟨_, _, rfl, hspecial⟩)
    · have hplain : Style.bare.plain ch := fun hsep => hspecial (hsep.imp_right .inl)
      rw [step_between_bare hspecial hslash]
      exact .more (.word .bare h (.plain .nil hslash hplain) ⟨_, _, rfl, hspecial⟩)

theorem goes_comment {stg : List Word} {words line : List Byte} (h : Leading Separates stg.length words)
    (hline : byte '\n' ∉ line) (ch : Byte) : Goes (words ++ byte '#' :: line) ch ((comment stg).step ch) := by
  by_cases hend : ch = byte '\n'
  · subst hend
    exact .more (.between (h.comment hline))
  · rw [step_comment hend]
    apply Goes.more
    rw [List.append_assoc, List.cons_append]
    apply Reached.comment h
    rw [List.mem_append, List.mem_singleton, not_or]
    exact ⟨hline, Ne.symm hend⟩

theorem Style.Opened.append {style : Style} {raw : List Byte} (h : style.Opened raw) (more : List Byte) :
    style.Opened (raw ++ more) := by
  cases style with
  | bare =>
    obtain ⟨ch, rest, rfl, hspecial⟩ := h
    exact ⟨ch, rest ++ more, rfl, hspecial⟩
  | double => trivial
  | single => trivial

/-- Without a backslash in front, a character goes on with the word, or ends it. -/
theorem Style.plain_or_ends (style : Style) (ch : Byte) :
    style.plain ch ∨ style.opening = [ch] ∨ style = .bare ∧ (Blank ch ∨ ch = byte ';') := by
  cases style with
  | bare => exact (em (Separates ch)).symm.imp_right fun h => .inr ⟨rfl, h⟩
  | double => exact (eq_or_ne ch (byte '"')).symm.imp_right fun h => .inl (by rw [h]; rfl)
  | single => exact (eq_or_ne ch (byte '\'')).symm.imp_right fun h => .inl (by rw [h]; rfl)

theorem goes_word {stg : List Word} {words raw : List Byte} (style : Style) (h : Leading Separates stg.length words)
    (hchars : Chars style.plain raw) (hopened : style.Opened raw) (ch : Byte) :
    Goes (words ++ (style.opening ++ raw)) ch ((style.scan stg raw).step ch) := by
  by_cases hslash : ch = byte '\\'
  · subst hslash
    rw [style.step_slash]
    apply Goes.more
    rw [List.append_assoc, List.append_assoc]
    exact .slash style h hchars (hopened.append _)
  rcases style.plain_or_ends ch with hplain | hquote | ⟨rfl, hends⟩
  · rw [style.step_plain hslash hplain]
    apply Goes.more
    rw [List.append_assoc, List.append_assoc]
    exact .word style h (hchars.plain hslash hplain) (hopened.append _)
  · obtain ⟨value, hstep⟩ := style.step_quote stg raw hquote
    have hquoted : Quoted (ch :: raw ++ [ch]) := by
      cases style with
      | bare => cases hquote
      | double =>
        cases hquote
        exact .mk (.inl rfl) hchars
      | single =>
        cases hquote
        exact .mk (.inr rfl) hchars
    rw [hstep]
    apply Goes.more
    have hclosed : Reached (closed (stg ++ [value])) (words ++ (ch :: raw ++ [ch])) := .closed h hquoted (by simp)
    simpa [hquote] using hclosed
  · have hbare : Bare Separates raw := ⟨hchars, hopened⟩
    rcases hends with hblank | rfl
    · obtain ⟨value, hstep⟩ := step_bare_blank stg raw hblank
      rw [hstep]
      have hword := Leading.word h (.inl hbare) hblank .nil
      exact .more (.between (by simpa [Style.opening] using hword))
    · obtain ⟨value, hstep⟩ := step_bare_end stg raw
      rw [hstep]
      exact .token _ fun rest => .next rest (.bare h hbare (.inr rfl))

theorem goes_closed {n : ℕ} {stg : List Word} {words word : List Byte} (h : Leading Separates n words)
    (hquoted : Quoted word) (hlen : stg.length = n + 1) (ch : Byte) :
    Goes (words ++ word) ch ((closed stg).step ch) := by
  by_cases hblank : Blank ch
  · rw [step_closed_blank hblank]
    have hword := Leading.word h (.inr hquoted) hblank .nil
    exact .more (.between (hlen ▸ hword))
  by_cases hend : ch = byte ';'
  · subst hend
    exact .token _ fun rest => .next rest (.quoted h hquoted)
  by_cases hopen : ch = byte '{'
  · subst hopen
    exact .token _ fun rest => .blockStart rest (.quoted h hquoted)
  · have hstep : (closed stg).step ch = .token .error stg := by
      simp [Scan.step, Scan.stepNeeded, hblank, hend, hopen]
    rw [hstep]
    refine .token _ fun rest => ?_
    simpa using Lexeme.fault rest (.joined h hquoted hblank hend hopen)

theorem Reached.step {s : Scan} {read : List Byte} (h : Reached s read) (ch : Byte) : Goes read ch (s.step ch) := by
  cases h with
  | between hwords => exact goes_between hwords ch
  | comment hwords hline => exact goes_comment hwords hline ch
  | word style hwords hchars hopened => exact goes_word style hwords hchars hopened ch
  | @slash stg words raw style hwords hchars hopened =>
    rw [style.slash_step]
    apply Goes.more
    rw [List.append_assoc, List.append_assoc, List.append_assoc, ← List.append_assoc raw]
    exact .word style hwords (hchars.escaped ch) (hopened.append _)
  | closed hwords hquoted hlen => exact goes_closed hwords hquoted hlen ch

/-- The end of the text, with or without words in front -/
theorem lexeme_lastLine {stg : List Word} {words line : List Byte} (h : Leading Separates stg.length words)
    (hline : LastLine line) : Lexeme (if 0 < stg.length then .error else .atEnd) (words ++ line) [] := by
  cases stg with
  | nil => exact .atEnd h.layout_of_zero hline
  | cons word stg => exact .cut (.spaced h hline)

/-- A word that the end of the text cuts off -/
theorem lexeme_begun {stg : List Word} {words raw : List Byte} (style : Style) (h : Leading Separates stg.length words)
    (hbegun : Begun style.plain raw) (hopened : style.Opened raw) :
    Lexeme .error (words ++ (style.opening ++ raw)) [] := by
  cases style with
  | bare => exact .cut (.bare h hbegun hopened)
  | double => exact .cut (.quote h (.inl rfl) hbegun)
  | single => exact .cut (.quote h (.inr rfl) hbegun)

/-- The text ends in a part of a token. -/
theorem Reached.atEnd {s : Scan} {read : List Byte} (h : Reached s read) : Lexeme (readToken s []).1 read [] := by
  cases h with
  | between hwords =>
    rw [LastLine.nil.readToken, ← List.append_nil read]
    exact lexeme_lastLine hwords .nil
  | comment hwords hline =>
    rw [readToken_lastComment List.not_mem_nil]
    exact lexeme_lastLine hwords (.comment hline)
  | word style hwords hchars hopened =>
    rw [readToken_end (.inr (by cases style <;> rfl))]
    exact lexeme_begun style hwords (.chars hchars) hopened
  | slash style hwords hchars hopened =>
    rw [readToken_end (.inr (by cases style <;> rfl))]
    exact lexeme_begun style hwords (.backslash hchars) hopened
  | closed hwords hquoted hlen =>
    rw [readToken_end (.inr rfl)]
    exact .cut (.quoted hwords hquoted)

theorem Reached.readToken {s : Scan} {read : List Byte} (h : Reached s read) (text : List Byte) :
    Lexeme (readToken s text).1 (read ++ text) (readToken s text).2.2 := by
  induction text generalizing s read with
  | nil =>
    rw [List.append_nil]
    exact h.atEnd
  | cons ch text ih =>
    have hgoes := h.step ch
    rw [ConfFile.readToken]
    generalize s.step ch = step at hgoes
    cases hgoes with
    | more hreached =>
      rw [List.append_cons]
      exact ih hreached
    | token stg hlexeme => exact hlexeme text

/-- The token at the beginning of a text is the one of the grammar. -/
theorem lexeme_iff {code : Code} {text rest : List Byte} :
    Lexeme code text rest ↔ ∃ stg, readToken {} text = (code, stg, rest) := by
  constructor
  · exact Lexeme.readToken
  · rintro ⟨stg, hread⟩
    have hstart : Reached (between []) [] := .between (.layout .nil)
    have h := hstart.readToken text
    rwa [List.nil_append, hread] at h

end Tefs.Proxy.ConfFile
