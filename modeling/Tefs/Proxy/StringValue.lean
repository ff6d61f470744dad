import Tefs.Lib.Search

/-! # Parameters of a query string

Source: `gvfs_string_value` of `gvfsproxy/src/core/gvfs_utils.c`, which `gvfs_http_upload.c` and its siblings call with
the query string of a request.

The key and a `=` are looked up with `strstr`, wherever they stand: in a longer name as well.
-/

namespace Tefs.Proxy.StringValue
open Search
set_option autoImplicit false

abbrev Byte := BitVec 8

def equals : Byte := 61

def ampersand : Byte := 38

/-! ## The lookup -/

/-- `key_buf`, which `snprintf` cuts off -/
def keyBuf (key : List Byte) : List Byte := (key ++ [equals]).take 63

def strstr (buf needle : List Byte) : Option (List Byte) := search needle buf

def strpbrk (p accept : List Byte) : Option (List Byte) :=
  match p.dropWhile (· ∉ accept) with
  | [] => none
  | c :: q => some (c :: q)

/-- `strncpy` to an array that holds `value` -/
def strncpy (value p : List Byte) : List Byte := p.take value.length ++ List.replicate (value.length - p.length) 0

/-- What `value` holds after a success, and `none` for an error; `vlen` is its length. -/
def stringValue (buf key value split : List Byte) : Option (List Byte) :=
  match strstr buf (keyBuf key) with
  | none => none
  | some p =>
    let p := p.drop (keyBuf key).length
    match strpbrk p split with
    | none => some (strncpy value p)
    | some q =>
      let len := p.length - q.length
      if value.length ≤ len then none else some (p.take len ++ 0 :: value.drop (len + 1))

/-! ## Query strings -/

structure Param where
  name : List Byte
  value : List Byte
  nameClean : ∀ c ∈ name, c ≠ ampersand ∧ c ≠ equals ∧ c ≠ 0
  valueClean : ∀ c ∈ value, c ≠ ampersand ∧ c ≠ equals ∧ c ≠ 0

def Param.text (p : Param) : List Byte := p.name ++ equals :: p.value

def queryTail (params : List Param) : List Byte := params.flatMap fun p => ampersand :: p.text

/-- `k1=v1&...&kn=vn` -/
def queryString : List Param → List Byte
  | [] => []
  | p :: params => p.text ++ queryTail params

/-- A lookup succeeds exactly if a parameter of that name fits, and then stores the value of one. -/
structure Exact (params : List Param) (key value : List Byte) : Prop where
  succeeds : (stringValue (queryString params) key value [ampersand]).isSome ↔
    ∃ p ∈ params, p.name = key ∧ p.value.length < value.length
  stored : ∀ out, stringValue (queryString params) key value [ampersand] = some out →
    out.length = value.length ∧ ∃ p ∈ params, p.name = key ∧ p.value ++ [0] <+: out

/-! ## When it does -/

/-- A parameter of that name has that value. -/
def Named (params : List Param) (key word : List Byte) : Prop := ∃ p ∈ params, p.name = key ∧ p.value = word

/-- A key that `key_buf` holds, and that may be the name of a parameter -/
structure Plain (key : List Byte) : Prop where
  short : key.length ≤ 62
  noAmpersand : ampersand ∉ key
  noEquals : equals ∉ key

/-- What follows on the first occurrence of `key_buf` -/
def behind (params : List Param) (key : List Byte) : Option (List Byte) :=
  (strstr (queryString params) (keyBuf key)).map (·.drop (keyBuf key).length)

/-- `word` is looked at, up to the end of the text if `last`: if it fits, a parameter of the name has it, and if not, it
is not the last and no parameter of the name fits. -/
def Harmless (params : List Param) (key : List Byte) (vlen : ℕ) (word : List Byte) (last : Prop) : Prop :=
  (word.length < vlen → Named params key word) ∧
  (vlen ≤ word.length → ¬ last ∧ ∀ p ∈ params, p.name = key → vlen ≤ p.value.length)

/-- The first parameter with a name that ends with the key is harmless. -/
def FirstHarmless (params : List Param) (key : List Byte) (vlen : ℕ) : Prop :=
  ∀ before p after, params = before ++ p :: after → (∀ p' ∈ before, ¬ key <:+ p'.name) → key <:+ p.name →
    Harmless params key vlen p.value (after = [])

/-- What follows on the first occurrence is harmless. -/
def BehindHarmless (params : List Param) (key : List Byte) (vlen : ℕ) : Prop :=
  ∀ text, behind params key = some text → Harmless params key vlen (text.takeWhile (· ≠ ampersand)) (ampersand ∉ text)

/-! ## What is stored -/

section

variable {params : List Param} {key value : List Byte}

theorem Param.text_ne_nul (p : Param) : ∀ c ∈ p.text, c ≠ 0 := by
  intro c hc
  rcases List.mem_append.mp hc with hname | hvalue
  · exact (p.nameClean c hname).2.2
  · rcases List.mem_cons.mp hvalue with rfl | hvalue
    · decide
    · exact (p.valueClean c hvalue).2.2

theorem queryTail_ne_nul (params : List Param) : ∀ c ∈ queryTail params, c ≠ 0 := by
  intro c hc
  obtain ⟨p, -, hp⟩ := List.mem_flatMap.mp hc
  rcases List.mem_cons.mp hp with rfl | htext
  · decide
  · exact p.text_ne_nul c htext

theorem queryString_ne_nul (params : List Param) : ∀ c ∈ queryString params, c ≠ 0 := by
  cases params with
  | nil => simp [queryString]
  | cons p params =>
    intro c hc
    rcases List.mem_append.mp hc with htext | htail
    · exact p.text_ne_nul c htext
    · exact queryTail_ne_nul params c htail

theorem text_infix_of_mem_tail {p : Param} (h : p ∈ params) : p.text <:+: queryTail params := by
  obtain ⟨before, after, rfl⟩ := List.append_of_mem h
  refine ⟨queryTail before ++ [ampersand], queryTail after, ?_⟩
  simp [queryTail]

theorem text_infix_of_mem {p : Param} (h : p ∈ params) : p.text <:+: queryString params := by
  cases params with
  | nil => exact absurd h List.not_mem_nil
  | cons p' params =>
    rcases List.mem_cons.mp h with rfl | h
    · exact ⟨[], queryTail params, rfl⟩
    · exact (text_infix_of_mem_tail h).trans (List.suffix_append _ _).isInfix

/-- The name of a parameter is found, cut off or not. -/
theorem behind_isSome {p : Param} (h : p ∈ params) (hname : p.name = key) : ∃ text, behind params key = some text := by
  have hkey : keyBuf key <:+: p.text := by
    apply List.IsPrefix.isInfix
    apply (List.take_prefix 63 _).trans
    rw [← hname]
    exact ⟨p.value, by simp [Param.text]⟩
  obtain ⟨q, hq⟩ := search_isSome (hkey.trans (text_infix_of_mem h))
  exact ⟨_, by rw [behind, strstr, hq, Option.map_some]⟩

theorem behind_ne_nul {text : List Byte} (h : behind params key = some text) : ∀ c ∈ text, c ≠ 0 := by
  obtain ⟨q, hq, rfl⟩ := Option.map_eq_some_iff.mp h
  intro c hc
  exact queryString_ne_nul params c ((prefix_of_search hq).2.subset (List.mem_of_mem_drop hc))

theorem strpbrk_none {p : List Byte} (h : ampersand ∉ p) : strpbrk p [ampersand] = none := by
  have hdrop : p.dropWhile (· ∉ [ampersand]) = [] := by
    rw [List.dropWhile_eq_nil_iff]
    intro c hc
    have hne : c ≠ ampersand := fun heq => h (heq ▸ hc)
    simpa using hne
  rw [strpbrk, hdrop]

theorem strpbrk_some {p : List Byte} (h : ampersand ∈ p) :
    ∃ q, strpbrk p [ampersand] = some q ∧ p = p.takeWhile (· ≠ ampersand) ++ q := by
  have hsplit : p.takeWhile (· ≠ ampersand) ++ p.dropWhile (· ∉ [ampersand]) = p := by
    simp
  rw [strpbrk]
  split
  · next hnil =>
    rw [List.dropWhile_eq_nil_iff] at hnil
    exact absurd (hnil ampersand h) (by simp)
  · next c q hq =>
    rw [hq] at hsplit
    exact ⟨c :: q, rfl, hsplit.symm⟩

theorem takeWhile_of_not_mem {p : List Byte} (h : ampersand ∉ p) : p.takeWhile (· ≠ ampersand) = p := by
  rw [List.takeWhile_eq_self_iff]
  intro c hc
  have hne : c ≠ ampersand := fun heq => h (heq ▸ hc)
  simpa using hne

theorem stringValue_of_behind_none (h : behind params key = none) :
    stringValue (queryString params) key value [ampersand] = none := by
  rw [stringValue, Option.map_eq_none_iff.mp h]

theorem stringValue_of_last {text : List Byte} (h : behind params key = some text) (hlast : ampersand ∉ text) :
    stringValue (queryString params) key value [ampersand] = some (strncpy value text) := by
  obtain ⟨q, hq, rfl⟩ := Option.map_eq_some_iff.mp h
  rw [stringValue, hq]
  dsimp only
  rw [strpbrk_none hlast]

theorem stringValue_of_inner {text : List Byte} (h : behind params key = some text) (hinner : ampersand ∈ text) :
    stringValue (queryString params) key value [ampersand] =
      if value.length ≤ (text.takeWhile (· ≠ ampersand)).length then none
      else some (text.takeWhile (· ≠ ampersand) ++ 0 :: value.drop ((text.takeWhile (· ≠ ampersand)).length + 1)) := by
  obtain ⟨r, hr, rfl⟩ := Option.map_eq_some_iff.mp h
  obtain ⟨q, hq, hsplit⟩ := strpbrk_some hinner
  rw [stringValue, hr]
  dsimp only
  rw [hq]
  dsimp only
  generalize (r.drop (keyBuf key).length).takeWhile (· ≠ ampersand) = word at hsplit
  have hlen : (r.drop (keyBuf key).length).length - q.length = word.length := by
    rw [hsplit, List.length_append, Nat.add_sub_cancel]
  have htake : (r.drop (keyBuf key).length).take word.length = word := by
    rw [hsplit, List.take_left]
  rw [hlen, htake]

theorem stringValue_fits {text : List Byte} (h : behind params key = some text)
    (hfits : (text.takeWhile (· ≠ ampersand)).length < value.length) :
    ∃ rest, stringValue (queryString params) key value [ampersand] =
        some (text.takeWhile (· ≠ ampersand) ++ 0 :: rest) ∧
      (text.takeWhile (· ≠ ampersand) ++ 0 :: rest).length = value.length := by
  by_cases hmem : ampersand ∈ text
  · refine ⟨_, by rw [stringValue_of_inner h hmem, if_neg (by omega)], ?_⟩
    rw [List.length_append, List.length_cons, List.length_drop]
    omega
  · rw [takeWhile_of_not_mem hmem] at hfits ⊢
    refine ⟨List.replicate (value.length - text.length - 1) 0, ?_, ?_⟩
    · obtain ⟨n, hn⟩ := Nat.exists_eq_add_of_lt hfits
      rw [stringValue_of_last h hmem, strncpy, List.take_of_length_le hfits.le, hn]
      simp [List.replicate_succ, show text.length + n + 1 - text.length = n + 1 by omega]
    · rw [List.length_append, List.length_cons, List.length_replicate]
      omega

/-- No two values make the same C string. -/
theorem eq_of_nul_prefixed {word word' rest : List Byte} (h : 0 ∉ word) (h' : 0 ∉ word')
    (hstarts : word ++ [0] <+: word' ++ 0 :: rest) : word = word' := by
  rw [← takeWhile_of_prefixed h hstarts, takeWhile_append_mark h']

theorem Param.nul_not_mem_value (p : Param) : 0 ∉ p.value := fun h => (p.valueClean 0 h).2.2 rfl

theorem nul_not_mem_word {text : List Byte} (h : behind params key = some text) :
    0 ∉ text.takeWhile (· ≠ ampersand) := fun hmem =>
  behind_ne_nul h 0 ((List.takeWhile_prefix _).subset hmem) rfl

/-! ## When it is exact -/

/-- A failure is exact if no parameter of the name fits. -/
theorem exact_iff_of_none (hnone : stringValue (queryString params) key value [ampersand] = none) :
    Exact params key value ↔ ∀ p ∈ params, p.name = key → value.length ≤ p.value.length := by
  constructor
  · intro hexact p hp hname
    by_contra hfits
    have hsome := hexact.succeeds.mpr ⟨p, hp, hname, Nat.not_le.mp hfits⟩
    rw [hnone] at hsome
    cases hsome
  · intro hall
    refine ⟨?_, ?_⟩
    · rw [hnone]
      constructor
      · intro hsome
        cases hsome
      · rintro ⟨p, hp, hname, hfits⟩
        exact absurd (hall p hp hname) (Nat.not_le.mpr hfits)
    · intro out hout
      cases hnone.symm.trans hout

theorem exact_of_behind_none (h : behind params key = none) : Exact params key value := by
  apply (exact_iff_of_none (stringValue_of_behind_none h)).mpr
  intro p hp hname
  obtain ⟨text, htext⟩ := behind_isSome hp hname
  cases h.symm.trans htext

/-- The word fits, and is stored. -/
theorem exact_iff_of_fits {text : List Byte} (h : behind params key = some text)
    (hfits : (text.takeWhile (· ≠ ampersand)).length < value.length) :
    Exact params key value ↔ Named params key (text.takeWhile (· ≠ ampersand)) := by
  obtain ⟨rest, hout, hlen⟩ := stringValue_fits h hfits
  have hnul := nul_not_mem_word h
  generalize text.takeWhile (· ≠ ampersand) = word at *
  constructor
  · intro hexact
    obtain ⟨-, p, hp, hname, hstarts⟩ := hexact.stored _ hout
    exact ⟨p, hp, hname, eq_of_nul_prefixed p.nul_not_mem_value hnul hstarts⟩
  · rintro ⟨p, hp, hname, rfl⟩
    refine ⟨?_, ?_⟩
    · rw [hout]
      exact ⟨fun _ => ⟨p, hp, hname, hfits⟩, fun _ => rfl⟩
    · intro out hout'
      cases hout.symm.trans hout'
      exact ⟨hlen, p, hp, hname, rest, by rw [List.append_assoc, List.singleton_append]⟩

/-- The word does not fit, and the lookup fails. -/
theorem exact_iff_of_inner {text : List Byte} (h : behind params key = some text) (hinner : ampersand ∈ text)
    (hlong : value.length ≤ (text.takeWhile (· ≠ ampersand)).length) :
    Exact params key value ↔ ∀ p ∈ params, p.name = key → value.length ≤ p.value.length := by
  apply exact_iff_of_none
  rw [stringValue_of_inner h hinner, if_pos hlong]

/-- The last word does not fit, and is stored without a NUL. -/
theorem not_exact_of_last {text : List Byte} (h : behind params key = some text) (hlast : ampersand ∉ text)
    (hlong : value.length ≤ (text.takeWhile (· ≠ ampersand)).length) : ¬ Exact params key value := by
  intro hexact
  rw [takeWhile_of_not_mem hlast] at hlong
  have hout : stringValue (queryString params) key value [ampersand] = some (text.take value.length) := by
    rw [stringValue_of_last h hlast, strncpy, Nat.sub_eq_zero_of_le hlong, List.replicate_zero, List.append_nil]
  obtain ⟨-, p, -, -, hstarts⟩ := hexact.stored _ hout
  have hmem : (0 : Byte) ∈ text.take value.length := hstarts.subset (by simp)
  exact behind_ne_nul h 0 (List.mem_of_mem_take hmem) rfl

/-- Whatever the key is, what follows on its first occurrence decides. -/
theorem exact_iff_behindHarmless (params : List Param) (key value : List Byte) :
    Exact params key value ↔ BehindHarmless params key value.length := by
  cases hbehind : behind params key with
  | none =>
    have hharmless : BehindHarmless params key value.length := by
      intro text htext
      cases hbehind.symm.trans htext
    exact ⟨fun _ => hharmless, fun _ => exact_of_behind_none hbehind⟩
  | some text =>
    have hiff : BehindHarmless params key value.length ↔
        Harmless params key value.length (text.takeWhile (· ≠ ampersand)) (ampersand ∉ text) := by
      rw [BehindHarmless, hbehind]
      simp
    rw [hiff, Harmless]
    by_cases hfits : (text.takeWhile (· ≠ ampersand)).length < value.length
    · rw [exact_iff_of_fits hbehind hfits]
      exact ⟨fun h => ⟨fun _ => h, fun hlong => absurd hfits (Nat.not_lt.mpr hlong)⟩, fun h => h.1 hfits⟩
    · have hlong := Nat.not_lt.mp hfits
      by_cases hinner : ampersand ∈ text
      · rw [exact_iff_of_inner hbehind hinner hlong]
        exact ⟨fun h => ⟨fun h' => absurd h' hfits, fun _ => ⟨not_not.mpr hinner, h⟩⟩, fun h => (h.2 hlong).2⟩
      · exact ⟨fun h => absurd h (not_exact_of_last hbehind hinner hlong), fun h => absurd hinner (h.2 hlong).1⟩

/-! ## Where a plain key is found -/

theorem Plain.keyBuf (h : Plain key) : keyBuf key = key ++ [equals] := by
  apply List.take_of_length_le
  have := h.short
  rw [List.length_append, List.length_singleton]
  omega

/-- A parameter with a name that does not end with the key is skipped, and the `&` in front of it too. -/
theorem search_skip {p : Param} (h : Plain key) (hname : ¬ key <:+ p.name) {rest : List Byte}
    (hrest : rest = [] ∨ ∃ tail, rest = ampersand :: tail) :
    search (key ++ [equals]) (p.text ++ rest) = search (key ++ [equals]) rest := by
  have hequals : ∀ {s : List Byte}, s <:+ p.name → equals ∉ s := fun hs hmem =>
    (p.nameClean _ (hs.subset hmem)).2.1 rfl
  have hskipName : Skips (key ++ [equals]) p.name (equals :: p.value ++ rest) := by
    intro s hs _ hstarts
    have hword := takeWhile_of_prefixed h.noEquals hstarts
    rw [List.cons_append, takeWhile_append_mark (hequals hs)] at hword
    exact hname (hword ▸ hs)
  have hskipValue : Skips (key ++ [equals]) (equals :: p.value) rest := by
    intro s hs _ hstarts
    have hword := takeWhile_of_prefixed h.noEquals hstarts
    rcases List.suffix_cons_iff.mp hs with rfl | hs
    · have hnil : (equals :: p.value ++ rest).takeWhile (· ≠ equals) = [] := by simp
      rw [hnil] at hword
      exact hname (hword ▸ List.nil_suffix)
    · have hclean : ∀ c ∈ s, c ≠ ampersand ∧ c ≠ equals ∧ c ≠ 0 := fun c hc => p.valueClean c (hs.subset hc)
      have hs' : ∀ c ∈ s, decide (c ≠ equals) = true := fun c hc => decide_eq_true (hclean c hc).2.1
      rcases hrest with rfl | ⟨tail, rfl⟩
      · have hmem : equals ∈ s ++ [] := hstarts.subset (by simp)
        rw [List.append_nil] at hmem
        exact (hclean equals hmem).2.1 rfl
      · rw [List.takeWhile_append_of_pos hs', List.takeWhile_cons_of_pos (by decide)] at hword
        exact h.noAmpersand (hword ▸ by simp)
  rw [Param.text, List.append_assoc, search_append hskipName, search_append hskipValue]

theorem search_ampersand (h : Plain key) (rest : List Byte) :
    search (key ++ [equals]) (ampersand :: rest) = search (key ++ [equals]) rest := by
  apply search_cons_of_not_prefixed
  rintro ⟨tail, heq⟩
  cases key with
  | nil => cases heq
  | cons c key =>
    cases heq
    exact h.noAmpersand List.mem_cons_self

/-- In a parameter with a name that ends with the key, the key at its end is found. -/
theorem search_hit {p : Param} (h : Plain key) (hname : key <:+ p.name) (rest : List Byte) :
    search (key ++ [equals]) (p.text ++ rest) = some (key ++ [equals] ++ (p.value ++ rest)) := by
  obtain ⟨front, hfront⟩ := hname
  have hskip : Skips (key ++ [equals]) front (key ++ equals :: (p.value ++ rest)) := by
    intro s hs hne hstarts
    have hmark : equals ∉ s ++ key := by
      intro hmem
      have hmem' : equals ∈ p.name := by
        rw [← hfront]
        exact (List.mem_append.mp hmem).elim (fun h => List.mem_append_left _ (hs.subset h)) (List.mem_append_right _)
      exact (p.nameClean _ hmem').2.1 rfl
    have hword := takeWhile_of_prefixed h.noEquals hstarts
    rw [← List.append_assoc, takeWhile_append_mark hmark] at hword
    exact hne (by simpa using hword)
  have htext : p.text ++ rest = front ++ (key ++ equals :: (p.value ++ rest)) := by
    rw [Param.text, ← hfront]
    simp
  rw [htext, search_append hskip, search_of_prefixed ⟨p.value ++ rest, by simp⟩]
  simp

theorem queryTail_cons (p : Param) (params : List Param) :
    queryTail (p :: params) = ampersand :: queryString (p :: params) := by
  rw [queryTail, List.flatMap_cons]
  rfl

theorem queryTail_cases (params : List Param) :
    queryTail params = [] ∨ ∃ tail, queryTail params = ampersand :: tail := by
  cases params with
  | nil => exact .inl rfl
  | cons p params => exact .inr ⟨_, queryTail_cons p params⟩

/-- The parameters in front of the first with such a name are skipped. -/
theorem behind_first (h : Plain key) {before : List Param} {p : Param} {after : List Param}
    (hbefore : ∀ p' ∈ before, ¬ key <:+ p'.name) (hname : key <:+ p.name) :
    behind (before ++ p :: after) key = some (p.value ++ queryTail after) := by
  have hsearch : search (key ++ [equals]) (queryString (before ++ p :: after)) =
      some (key ++ [equals] ++ (p.value ++ queryTail after)) := by
    induction before with
    | nil => exact search_hit h hname (queryTail after)
    | cons b before ih =>
      have hb := hbefore b List.mem_cons_self
      have hrest := ih fun p' hp' => hbefore p' (List.mem_cons_of_mem _ hp')
      rw [List.cons_append, queryString, search_skip h hb (queryTail_cases _)]
      cases before with
      | nil =>
        rw [List.nil_append, queryTail_cons, search_ampersand h]
        exact hrest
      | cons b' before =>
        rw [List.cons_append, queryTail_cons, search_ampersand h]
        exact hrest
  rw [behind, strstr, h.keyBuf, hsearch, Option.map_some, List.drop_left]

theorem behind_none (h : Plain key) (hnone : ∀ p ∈ params, ¬ key <:+ p.name) : behind params key = none := by
  have hempty : search (key ++ [equals]) [] = none :=
    if_neg (List.append_ne_nil_of_right_ne_nil _ (List.cons_ne_nil _ _))
  have hsearch : search (key ++ [equals]) (queryString params) = none := by
    induction params with
    | nil => exact hempty
    | cons p params ih =>
      have hrest := ih fun p' hp' => hnone p' (List.mem_cons_of_mem _ hp')
      rw [queryString, search_skip h (hnone p List.mem_cons_self) (queryTail_cases params)]
      cases params with
      | nil => exact hempty
      | cons p' params =>
        rw [queryTail_cons, search_ampersand h]
        exact hrest
  rw [behind, strstr, h.keyBuf, hsearch, Option.map_none]

theorem exists_first (h : ∃ p ∈ params, key <:+ p.name) :
    ∃ before p after, params = before ++ p :: after ∧ (∀ p' ∈ before, ¬ key <:+ p'.name) ∧ key <:+ p.name := by
  induction params with
  | nil => simp at h
  | cons p params ih =>
    by_cases hname : key <:+ p.name
    · exact ⟨[], p, params, rfl, by simp, hname⟩
    · obtain ⟨p', hp', hname'⟩ := h
      have hmem : p' ∈ params := (List.mem_cons.mp hp').resolve_left fun heq => hname (heq ▸ hname')
      obtain ⟨before, q, after, rfl, hbefore, hq⟩ := ih ⟨p', hmem, hname'⟩
      exact ⟨p :: before, q, after, rfl, List.forall_mem_cons.mpr ⟨hname, hbefore⟩, hq⟩

theorem Param.ampersand_not_mem_value (p : Param) : ampersand ∉ p.value := fun h => (p.valueClean _ h).1 rfl

theorem takeWhile_value (p : Param) (after : List Param) :
    (p.value ++ queryTail after).takeWhile (· ≠ ampersand) = p.value := by
  cases after with
  | nil => exact (congrArg _ (List.append_nil _)).trans (takeWhile_of_not_mem p.ampersand_not_mem_value)
  | cons q after => rw [queryTail_cons, takeWhile_append_mark p.ampersand_not_mem_value]

theorem last_iff (p : Param) (after : List Param) : ampersand ∉ p.value ++ queryTail after ↔ after = [] := by
  cases after with
  | nil => simp [queryTail, p.ampersand_not_mem_value]
  | cons q after => simp [queryTail_cons]

theorem behindHarmless_iff_first (h : Plain key) (vlen : ℕ) :
    BehindHarmless params key vlen ↔ FirstHarmless params key vlen := by
  constructor
  · rintro hbehind before p after rfl hbefore hname
    have hfirst := hbehind _ (behind_first h hbefore hname)
    rwa [takeWhile_value, last_iff] at hfirst
  · intro hfirst text htext
    by_cases hsome : ∃ p ∈ params, key <:+ p.name
    · obtain ⟨before, p, after, rfl, hbefore, hname⟩ := exists_first hsome
      cases (behind_first h hbefore hname).symm.trans htext
      rw [takeWhile_value, last_iff]
      exact hfirst before p after rfl hbefore hname
    · push Not at hsome
      cases (behind_none h hsome).symm.trans htext

end

/-- For a plain key the first parameter with a name that ends with it decides, for another what follows on the first
occurrence of the text that is searched for. -/
theorem exact_iff_harmless (params : List Param) (key value : List Byte) :
    Exact params key value ↔ (Plain key → FirstHarmless params key value.length) ∧
      (¬ Plain key → BehindHarmless params key value.length) := by
  rw [exact_iff_behindHarmless]
  by_cases h : Plain key
  · rw [behindHarmless_iff_first h]
    exact ⟨fun hfirst => ⟨fun _ => hfirst, fun hnot => absurd h hnot⟩, fun hboth => hboth.1 h⟩
  · exact ⟨fun hbehind => ⟨fun hplain => absurd hplain h, fun _ => hbehind⟩, fun hboth => hboth.2 h⟩

/-- `hash=aaa` fills three bytes, and there is no NUL behind it. -/
example : stringValue (queryString [⟨[0x68, 0x61, 0x73, 0x68], [97, 97, 97], by decide, by decide⟩])
    [0x68, 0x61, 0x73, 0x68] [0, 0, 0] [ampersand] = some [97, 97, 97] := by
  decide

/-- `xk=a` -/
def longerName : Param := ⟨[120, 107], [97], by decide, by decide⟩

/-- `k=b` -/
def shorterName : Param := ⟨[107], [98], by decide, by decide⟩

/-- The value of `k` in `xk=a&k=b` is `a`. -/
theorem longer_name_found :
    stringValue (queryString [longerName, shorterName]) [107] [0, 0, 0, 0] [ampersand] = some [97, 0, 0, 0] ∧
      ¬ Exact [longerName, shorterName] [107] [0, 0, 0, 0] := by
  have hout : stringValue (queryString [longerName, shorterName]) [107] [0, 0, 0, 0] [ampersand] =
      some [97, 0, 0, 0] := by
    decide
  refine ⟨hout, fun h => ?_⟩
  obtain ⟨-, p, hp, hname, hstarts⟩ := h.stored _ hout
  rcases List.mem_cons.mp hp with rfl | hp
  · exact absurd hname (by decide)
  · cases List.mem_singleton.mp hp
    exact absurd hstarts (by decide)

end Tefs.Proxy.StringValue
