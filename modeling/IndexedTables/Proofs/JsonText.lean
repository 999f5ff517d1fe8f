import IndexedTables.Json.Reader
import IndexedTables.Proofs.HexText
set_option autoImplicit false

namespace IndexedTables.Json

theorem isDigit_of_lt {n : Nat} (h : n < 10) : Ascii.isDigit (Ascii.zero + UInt8.ofNat n) := by
  have all : ∀ n < 10, Ascii.isDigit (Ascii.zero + UInt8.ofNat n) := by decide
  exact all n h

theorem isDigit_of_mem_decimal (n : Nat) : ∀ d ∈ decimal n, Ascii.isDigit d := by
  induction n using decimal.induct with
  | case1 n h =>
    rw [decimal, if_pos h]
    simpa using isDigit_of_lt h
  | case2 n h ih =>
    rw [decimal, if_neg h]
    intro d hd
    rcases List.mem_append.1 hd with hd | hd
    · exact ih d hd
    · rw [List.mem_singleton.1 hd]
      exact isDigit_of_lt (Nat.mod_lt n (by decide))

theorem decimalValue_decimal (n : Nat) : decimalValue (decimal n) = n := by
  have digit_value : ∀ n < 10, (Ascii.zero + UInt8.ofNat n - Ascii.zero).toNat = n := by decide
  induction n using decimal.induct with
  | case1 n h => simpa [decimal, h, decimalValue] using digit_value n h
  | case2 n h ih =>
    rw [decimal, if_neg h, decimalValue, List.foldl_append]
    rw [decimalValue] at ih
    rw [ih, List.foldl_cons, List.foldl_nil, digit_value _ (Nat.mod_lt n (by decide))]
    omega

theorem exists_decimal (n : Nat) : decimal n = [Ascii.zero] ∨
    ∃ d rest, decimal n = d :: rest ∧ d ≠ Ascii.zero := by
  have nonzero : ∀ n < 10, n ≠ 0 → Ascii.zero + UInt8.ofNat n ≠ Ascii.zero := by decide
  have positive : ∀ n, n ≠ 0 → ∃ d rest, decimal n = d :: rest ∧ d ≠ Ascii.zero := by
    intro n hn
    induction n using decimal.induct with
    | case1 n h => exact ⟨_, [], by rw [decimal, if_pos h], nonzero n h hn⟩
    | case2 n h ih =>
      obtain ⟨d, rest, hd, hzero⟩ := ih (by omega)
      exact ⟨d, _, by rw [decimal, if_neg h, hd]; rfl, hzero⟩
  rcases Nat.eq_zero_or_pos n with rfl | hn
  · exact .inl (by rw [decimal]; rfl)
  · exact .inr (positive n (by omega))

@[simp] theorem natural?_ofNat (n : Nat) : (ofNat n).natural? = some n := by
  have digits : (decimal n).all Ascii.isDigit := List.all_eq_true.2 (isDigit_of_mem_decimal n)
  simp [ofNat, natural?, digits, decimalValue_decimal]

theorem byte?_ofNat (b : UInt8) : (ofNat b.toNat).byte? = some b := by
  simp [byte?, UInt8.toNat_lt b]

@[simp] theorem bytes?_ofBytes (b : Bytes) : (ofBytes b).bytes? = some b := by
  rw [bytes?, ofBytes, list?, List.mapM_map]
  induction b with
  | nil => rfl
  | cons x rest ih =>
    rw [List.mapM_cons, Function.comp_apply, byte?_ofNat, ih]
    rfl

/-- What may follow a value within a text: nothing, or what parts it from what comes next. -/
def Parts (rest : Bytes) : Prop :=
  ∀ b ∈ rest.head?, b = Ascii.comma ∨ b = Ascii.closeBracket ∨ b = Ascii.closeBrace

theorem parts_nil : Parts [] := by simp [Parts]

theorem readDigits_append {digits rest : Bytes} (hdigits : ∀ d ∈ digits, Ascii.isDigit d)
    (hrest : Parts rest) : readDigits (digits ++ rest) = (digits, rest) := by
  have hstop : rest.takeWhile Ascii.isDigit = [] ∧ rest.dropWhile Ascii.isDigit = rest := by
    cases rest with
    | nil => exact ⟨rfl, rfl⟩
    | cons b tail =>
      have hb : Ascii.isDigit b = false := by
        rcases hrest b rfl with rfl | rfl | rfl <;> rfl
      simp [hb]
  rw [readDigits, List.takeWhile_append_of_pos hdigits, List.dropWhile_append_of_pos hdigits,
    hstop.1, hstop.2, List.append_nil]

theorem readInteger_decimal (n : Nat) {rest : Bytes} (hrest : Parts rest) :
    readInteger (decimal n ++ rest) = some (decimal n, rest) := by
  have hdigits := readDigits_append (isDigit_of_mem_decimal n) hrest
  rcases exists_decimal n with hzero | ⟨d, digits, hd, nonzero⟩
  · rw [hzero]
    rfl
  · rw [hd] at hdigits ⊢
    unfold readInteger
    split
    · next h => exact absurd (List.cons.inj h).1 nonzero
    · rw [hdigits]

theorem readNumber_of_unsigned {d : UInt8} {tail : Bytes} (h : d ≠ Ascii.minus) :
    readNumber (d :: tail) = (do
      let (integer, rest) ← readInteger (d :: tail)
      let (fraction, rest) ← readFraction rest
      let (exponent, rest) ← readExponent rest
      return (integer ++ fraction ++ exponent, rest)) := by
  unfold readNumber
  split
  next sign rest hsign =>
    split at hsign
    · next same => exact absurd (List.cons.inj same).1 h
    · cases hsign
      rfl

theorem ne_of_isDigit {b d : UInt8} (h : Ascii.isDigit d) (hb : Ascii.isDigit b = false) :
    b ≠ d := by
  rintro rfl
  rw [hb] at h
  cases h

theorem isBlank_of_isDigit {d : UInt8} (h : Ascii.isDigit d) : isBlank d = false := by
  have differs : ∀ b, Ascii.isDigit b = false → d ≠ b := fun b hb => (ne_of_isDigit h hb).symm
  simp [isBlank, differs Ascii.space rfl, differs Ascii.tab rfl, differs Ascii.lineFeed rfl,
    differs Ascii.carriageReturn rfl]

theorem exists_digit_decimal (n : Nat) :
    ∃ d rest, decimal n = d :: rest ∧ Ascii.isDigit d := by
  have all_digits := isDigit_of_mem_decimal n
  rcases exists_decimal n with hd | ⟨d, rest, hd, -⟩ <;>
    exact ⟨_, _, hd, all_digits _ (by simp [hd])⟩

theorem readNumber_decimal (n : Nat) {rest : Bytes} (hrest : Parts rest) :
    readNumber (decimal n ++ rest) = some (decimal n, rest) := by
  have hfraction : readFraction rest = some ([], rest) := by
    cases rest with
    | nil => rfl
    | cons b tail => rcases hrest b rfl with rfl | rfl | rfl <;> rfl
  have hexponent : readExponent rest = some ([], rest) := by
    cases rest with
    | nil => rfl
    | cons b tail => rcases hrest b rfl with rfl | rfl | rfl <;> rfl
  have hinteger := readInteger_decimal n hrest
  obtain ⟨d, digits, hd, hdigit⟩ := exists_digit_decimal n
  have unsigned : d ≠ Ascii.minus := (ne_of_isDigit hdigit rfl).symm
  rw [hd, List.cons_append] at hinteger ⊢
  rw [readNumber_of_unsigned unsigned, hinteger]
  simp [hfraction, hexponent]

theorem unescapeLetter?_of_mem {e : UInt8 × UInt8} (h : e ∈ escapeLetters) :
    e.2 ≠ Ascii.letterU ∧ unescapeLetter? e.2 = some e.1 := by
  have all : escapeLetters.all fun e =>
      decide (e.2 ≠ Ascii.letterU ∧ unescapeLetter? e.2 = some e.1) := by decide
  exact of_decide_eq_true (List.all_eq_true.1 all e h)

theorem exists_hex4?_ofByte (b : UInt8) : ∃ c d,
    (Hex.ofByte b).map (fun c => c.toNat.toUInt8) = [c, d] ∧
      hex4? Ascii.zero Ascii.zero c d = some b.toNat := by
  have hb := UInt8.toNat_lt b
  have hhigh := Hex.value?_digit (b.toNat / 16) (by omega)
  have hlow := Hex.value?_digit (b.toNat % 16) (by omega)
  have hzero : Hex.value? Ascii.zero = some 0 := by decide
  refine ⟨_, _, rfl, ?_⟩
  simp [hex4?, hzero, hhigh, hlow]
  omega

/-- A byte stands for itself, behind a backslash under a letter, or there as a number. -/
theorem escapeByte_cases (b : UInt8) :
    (∃ letter, escapeByte b = [Ascii.backslash, letter] ∧ letter ≠ Ascii.letterU ∧
      unescapeLetter? letter = some b) ∨
    (∃ c d, escapeByte b = [Ascii.backslash, Ascii.letterU, Ascii.zero, Ascii.zero, c, d] ∧
      hex4? Ascii.zero Ascii.zero c d = some b.toNat ∧ b < Ascii.space) ∨
    (escapeByte b = [b] ∧ ¬ b < Ascii.space ∧ b ≠ Ascii.quote ∧ b ≠ Ascii.backslash) := by
  unfold escapeByte
  cases h : escapeLetters.lookup b with
  | some letter =>
    obtain ⟨before, after, hletters, -⟩ := List.lookup_eq_some_iff.1 h
    have hmem : (b, letter) ∈ escapeLetters := by simp [hletters]
    exact .inl ⟨letter, rfl, unescapeLetter?_of_mem hmem⟩
  | none =>
    by_cases control : b < Ascii.space
    · obtain ⟨c, d, hdigits, hvalue⟩ := exists_hex4?_ofByte b
      exact .inr (.inl ⟨c, d, by simp [control, hdigits], hvalue, control⟩)
    · refine .inr (.inr ⟨by simp [control], control, ?_, ?_⟩) <;>
      · rintro rfl
        cases h

theorem readString_escapeByte (b : UInt8) (rest : Bytes) :
    readString (escapeByte b ++ rest) =
      (readString rest).map fun (literal, rest) => (escapeByte b ++ literal, rest) := by
  rcases escapeByte_cases b with ⟨letter, hb, other, hletter⟩ | ⟨c, d, hb, hvalue, -⟩ |
    ⟨hb, printable, hquote, hbackslash⟩
  · rw [hb]
    refine (readString.eq_4 letter rest fun _ _ _ _ _ same _ => other same).trans ?_
    rw [hletter]
    cases readString rest <;> rfl
  · rw [hb]
    refine (readString.eq_3 Ascii.zero Ascii.zero c d rest).trans ?_
    rw [hvalue]
    cases readString rest <;> rfl
  · rw [hb]
    refine (readString.eq_5 b rest hquote (fun _ _ _ _ _ same _ => hbackslash same)
      fun _ _ same _ => hbackslash same).trans ?_
    rw [if_neg (by simp [printable, hbackslash])]
    cases readString rest <;> rfl

theorem codePoint_of_lt : ∀ n < 32, codePoint n = [UInt8.ofNat n] := by decide

theorem unescape?_escapeByte (b : UInt8) (rest : Bytes) :
    unescape? (escapeByte b ++ rest) = (unescape? rest).map (b :: ·) := by
  rcases escapeByte_cases b with ⟨letter, hb, other, hletter⟩ | ⟨c, d, hb, hvalue, control⟩ |
    ⟨hb, -, -, hbackslash⟩
  · rw [hb]
    refine (unescape?.eq_3 letter rest fun _ _ _ _ _ same _ => other same).trans ?_
    rw [hletter]
    cases unescape? rest <;> rfl
  · have hlt : b.toNat < 32 := UInt8.lt_iff_toNat_lt.1 control
    have hhigh : isHighSurrogate b.toNat = false := by
      simp [isHighSurrogate]
      omega
    have hlow : isLowSurrogate b.toNat = false := by
      simp [isLowSurrogate]
      omega
    rw [hb]
    refine (unescape?.eq_2 Ascii.zero Ascii.zero c d rest).trans ?_
    rw [hvalue]
    simp only [Option.bind_eq_bind, Option.bind_some, hhigh, hlow, codePoint_of_lt _ hlt]
    cases unescape? rest <;> simp
  · rw [hb]
    refine (unescape?.eq_4 b rest (fun _ _ _ _ _ same _ => hbackslash same)
      fun _ _ same _ => hbackslash same).trans ?_
    rw [if_neg hbackslash]
    cases unescape? rest <;> rfl

def Escaped (literal : Bytes) : Prop := ∃ b : Bytes, literal = b.flatMap escapeByte

theorem Escaped.readString {literal : Bytes} (h : Escaped literal) (rest : Bytes) :
    readString (literal ++ Ascii.quote :: rest) = some (literal, rest) := by
  obtain ⟨b, rfl⟩ := h
  induction b with
  | nil => rfl
  | cons x b ih =>
    rw [List.flatMap_cons, List.append_assoc, readString_escapeByte, ih]
    rfl

theorem unescape?_flatMap (b : Bytes) : unescape? (b.flatMap escapeByte) = some b := by
  induction b with
  | nil => rfl
  | cons x b ih =>
    rw [List.flatMap_cons, unescape?_escapeByte, ih]
    rfl

theorem textOf?_ofText (s : String) : textOf? ((Bytes.ofText s).flatMap escapeByte) = some s := by
  rw [textOf?, unescape?_flatMap]
  exact Bytes.toText?_ofText s

/-- Values that are built of naturals and texts. -/
inductive Plain : Json → Prop where
  | null : Plain .null
  | bool (value : Bool) : Plain (.bool value)
  | natural (n : Nat) : Plain (ofNat n)
  | text (b : Bytes) : Plain (ofUtf8 b)
  | array {items : List Json} (plain : ∀ item ∈ items, Plain item) : Plain (.array items)
  | object {fields : List (Bytes × Json)}
      (names : ∀ f ∈ fields, Escaped f.1)
      (plain : ∀ f ∈ fields, Plain f.2) : Plain (.object fields)

def Legible (j : Json) : Prop := ∀ fuel rest, 2 * j.render.length ≤ fuel → Parts rest →
  readValue fuel (j.render ++ rest) = some (j, rest)

theorem skipBlanks_cons {b : UInt8} (h : isBlank b = false) (rest : Bytes) :
    skipBlanks (b :: rest) = b :: rest := by
  simp [skipBlanks, h]

theorem after?_cons_of_ne {b d : UInt8} (h : b ≠ d) (word rest : Bytes) :
    after? (b :: word) (d :: rest) = none := by
  simp [after?, List.isPrefixOf, h]

theorem readWord_decimal (n : Nat) {rest : Bytes} (hrest : Parts rest) :
    readWord (decimal n ++ rest) = some (ofNat n, rest) := by
  have hnumber := readNumber_decimal n hrest
  obtain ⟨d, digits, hd, hdigit⟩ := exists_digit_decimal n
  have differs : ∀ b, Ascii.isDigit b = false → b ≠ d := fun b => ne_of_isDigit hdigit
  rw [hd, List.cons_append] at hnumber ⊢
  rw [readWord, Ascii.null, Ascii.yes, Ascii.no, after?_cons_of_ne (differs _ rfl),
    after?_cons_of_ne (differs _ rfl), after?_cons_of_ne (differs _ rfl), hnumber, ofNat, hd]
  rfl

theorem legible_ofNat (n : Nat) : Legible (ofNat n) := by
  intro fuel rest hfuel hrest
  have hword := readWord_decimal n hrest
  change readValue fuel (decimal n ++ rest) = _
  obtain ⟨d, digits, hd, hdigit⟩ := exists_digit_decimal n
  have differs : ∀ b, Ascii.isDigit b = false → d ≠ b := fun b hb => (ne_of_isDigit hdigit hb).symm
  obtain ⟨fuel, rfl⟩ : ∃ k, fuel = k + 1 := by
    change 2 * (decimal n).length ≤ fuel at hfuel
    rw [hd, List.length_cons] at hfuel
    exact ⟨fuel - 1, by omega⟩
  rw [hd, List.cons_append] at hword ⊢
  rw [readValue, skipBlanks_cons (isBlank_of_isDigit hdigit)]
  split
  · next h => exact absurd (List.cons.inj h).1 (differs _ rfl)
  · next h => exact absurd (List.cons.inj h).1 (differs _ rfl)
  · next h => exact absurd (List.cons.inj h).1 (differs _ rfl)
  · exact hword

theorem legible_ofUtf8 (b : Bytes) : Legible (ofUtf8 b) := by
  intro fuel rest hfuel hrest
  cases fuel with
  | zero => simp [ofUtf8, render, renderString] at hfuel
  | succ fuel =>
    have htext : (ofUtf8 b).render ++ rest =
        Ascii.quote :: (b.flatMap escapeByte ++ Ascii.quote :: rest) := by
      simp [ofUtf8, render, renderString]
    rw [htext]
    change (do
      let (literal, rest) ← readString (b.flatMap escapeByte ++ Ascii.quote :: rest)
      return (string literal, rest)) = _
    rw [Escaped.readString ⟨b, rfl⟩]
    rfl

theorem readItems_of_legible {item : Json} (legible : Legible item) {fuel : Nat}
    (hfuel : 2 * item.render.length ≤ fuel) {more : Bytes} (hmore : Parts more) :
    readItems (fuel + 1) (item.render ++ more) =
      match skipBlanks more with
      | Ascii.closeBracket :: rest => some ([item], rest)
      | Ascii.comma :: rest => do
        let (items, rest) ← readItems fuel rest
        return (item :: items, rest)
      | _ => none := by
  rw [readItems, legible fuel more hfuel hmore]
  rfl

theorem readItems_renderItems {items : List Json} (legible : ∀ item ∈ items, Legible item)
    (nonempty : items ≠ []) (fuel : Nat) (hfuel : 2 * (renderItems items).length + 1 ≤ fuel)
    (rest : Bytes) : readItems fuel (renderItems items ++ Ascii.closeBracket :: rest) =
      some (items, rest) := by
  induction items generalizing fuel with
  | nil => exact absurd rfl nonempty
  | cons item items ih =>
    obtain ⟨hitem, hitems⟩ := List.forall_mem_cons.1 legible
    obtain ⟨fuel, rfl⟩ : ∃ k, fuel = k + 1 := ⟨fuel - 1, by omega⟩
    cases items with
    | nil =>
      rw [renderItems] at hfuel ⊢
      rw [readItems_of_legible hitem (by omega) (by simp [Parts])]
      rfl
    | cons next items =>
      rw [renderItems, List.length_append, List.length_cons] at hfuel
      rw [renderItems, List.append_assoc, readItems_of_legible hitem (by omega) (by simp [Parts])]
      change (do
        let (items, rest) ← readItems fuel
          (renderItems (next :: items) ++ Ascii.closeBracket :: rest)
        return (item :: items, rest)) = _
      rw [ih hitems (List.cons_ne_nil _ _) fuel (by omega)]
      rfl

theorem readFields_quote (fuel : Nat) (input : Bytes) :
    readFields (fuel + 1) (Ascii.quote :: input) = (do
      let (name, rest) ← readString input
      match skipBlanks rest with
      | Ascii.colon :: rest =>
        let (value, rest) ← readValue fuel rest
        match skipBlanks rest with
        | Ascii.closeBrace :: rest => return ([(name, value)], rest)
        | Ascii.comma :: rest =>
          let (fields, rest) ← readFields fuel rest
          return ((name, value) :: fields, rest)
        | _ => none
      | _ => none) := rfl

theorem readFields_of_legible {name : Bytes} {value : Json} (escaped : Escaped name)
    (legible : Legible value) {fuel : Nat} (hfuel : 2 * value.render.length ≤ fuel) {more : Bytes}
    (hmore : Parts more) :
    readFields (fuel + 1) (renderString name ++ Ascii.colon :: value.render ++ more) =
      match skipBlanks more with
      | Ascii.closeBrace :: rest => some ([(name, value)], rest)
      | Ascii.comma :: rest => do
        let (fields, rest) ← readFields fuel rest
        return ((name, value) :: fields, rest)
      | _ => none := by
  have htext : renderString name ++ Ascii.colon :: value.render ++ more =
      Ascii.quote :: (name ++ Ascii.quote :: (Ascii.colon :: (value.render ++ more))) := by
    simp [renderString]
  rw [htext, readFields_quote, escaped.readString]
  change (do
    let (value, rest) ← readValue fuel (value.render ++ more)
    match skipBlanks rest with
    | Ascii.closeBrace :: rest => return ([(name, value)], rest)
    | Ascii.comma :: rest =>
      let (fields, rest) ← readFields fuel rest
      return ((name, value) :: fields, rest)
    | _ => none) = _
  rw [legible fuel more hfuel hmore]
  rfl

theorem readFields_renderFields {fields : List (Bytes × Json)}
    (names : ∀ f ∈ fields, Escaped f.1) (legible : ∀ f ∈ fields, Legible f.2)
    (nonempty : fields ≠ []) (fuel : Nat) (hfuel : 2 * (renderFields fields).length + 1 ≤ fuel)
    (rest : Bytes) :
    readFields fuel (renderFields fields ++ Ascii.closeBrace :: rest) = some (fields, rest) := by
  induction fields generalizing fuel with
  | nil => exact absurd rfl nonempty
  | cons f fields ih =>
    obtain ⟨name, value⟩ := f
    obtain ⟨hname : Escaped name, hnames⟩ := List.forall_mem_cons.1 names
    obtain ⟨hvalue : Legible value, hvalues⟩ := List.forall_mem_cons.1 legible
    obtain ⟨fuel, rfl⟩ : ∃ k, fuel = k + 1 := ⟨fuel - 1, by omega⟩
    cases fields with
    | nil =>
      rw [renderFields, List.length_append, List.length_cons] at hfuel
      rw [renderFields, readFields_of_legible hname hvalue (by omega) (by simp [Parts])]
      rfl
    | cons next fields =>
      rw [renderFields] at hfuel ⊢
      simp only [List.length_append, List.length_cons] at hfuel
      rw [List.append_assoc, List.cons_append,
        readFields_of_legible hname hvalue (by omega) (by simp [Parts])]
      change (do
        let (fields, rest) ← readFields fuel
          (renderFields (next :: fields) ++ Ascii.closeBrace :: rest)
        return ((name, value) :: fields, rest)) = _
      rw [ih hnames hvalues (List.cons_ne_nil _ _) fuel (by omega)]
      rfl

theorem Plain.exists_render {j : Json} (h : Plain j) :
    ∃ b rest, j.render = b :: rest ∧ isBlank b = false ∧ b ≠ Ascii.closeBracket := by
  cases h with
  | null => exact ⟨_, _, rfl, rfl, by decide⟩
  | bool value => cases value <;> exact ⟨_, _, rfl, rfl, by decide⟩
  | natural n =>
    obtain ⟨d, digits, hd, hdigit⟩ := exists_digit_decimal n
    exact ⟨d, digits, hd, isBlank_of_isDigit hdigit, (ne_of_isDigit hdigit rfl).symm⟩
  | text b => exact ⟨_, _, rfl, rfl, by decide⟩
  | array plain => exact ⟨_, _, rfl, rfl, by decide⟩
  | object names plain => exact ⟨_, _, rfl, rfl, by decide⟩

theorem exists_renderItems (item : Json) (items : List Json) :
    ∃ rest, renderItems (item :: items) = item.render ++ rest := by
  cases items with
  | nil => exact ⟨[], by rw [renderItems, List.append_nil]⟩
  | cons next items => exact ⟨_, renderItems.eq_3 item next items⟩

theorem readValue_openBracket (fuel : Nat) (input : Bytes) :
    readValue (fuel + 1) (Ascii.openBracket :: input) =
      match skipBlanks input with
      | Ascii.closeBracket :: rest => some (array [], rest)
      | rest => do
        let (items, rest) ← readItems fuel rest
        return (array items, rest) := rfl

theorem legible_array {items : List Json} (plain : ∀ item ∈ items, Plain item)
    (legible : ∀ item ∈ items, Legible item) : Legible (.array items) := by
  intro fuel rest hfuel _
  cases fuel with
  | zero => simp [render] at hfuel
  | succ fuel =>
    have htext : (array items).render ++ rest =
        Ascii.openBracket :: (renderItems items ++ Ascii.closeBracket :: rest) := by
      simp [render]
    rw [htext]
    rw [render, List.length_append, List.length_cons, List.length_singleton] at hfuel
    cases items with
    | nil => rfl
    | cons item items =>
      have hitems := readItems_renderItems legible (List.cons_ne_nil item items) fuel (by omega)
        rest
      obtain ⟨b, tail, hb, hblank, hopen⟩ := (plain item List.mem_cons_self).exists_render
      obtain ⟨more, hmore⟩ := exists_renderItems item items
      rw [hmore, hb] at hitems ⊢
      rw [readValue_openBracket, List.cons_append, List.cons_append, skipBlanks_cons hblank]
      split
      · -- No value begins with the bracket that closes an empty list.
        next h => exact absurd (List.cons.inj h).1 hopen
      · exact congrArg (· >>= fun (items, rest) => some (array items, rest)) hitems

theorem legible_object {fields : List (Bytes × Json)}
    (names : ∀ f ∈ fields, Escaped f.1)
    (legible : ∀ f ∈ fields, Legible f.2) : Legible (.object fields) := by
  intro fuel rest hfuel _
  cases fuel with
  | zero => simp [render] at hfuel
  | succ fuel =>
    have htext : (object fields).render ++ rest =
        Ascii.openBrace :: (renderFields fields ++ Ascii.closeBrace :: rest) := by
      simp [render]
    rw [htext]
    rw [render, List.length_append, List.length_cons, List.length_singleton] at hfuel
    cases fields with
    | nil => rfl
    | cons f fields =>
      have hfields := readFields_renderFields names legible (List.cons_ne_nil f fields) fuel
        (by omega) rest
      obtain ⟨more, hmore⟩ : ∃ more, renderFields (f :: fields) = Ascii.quote :: more := by
        cases fields <;> exact ⟨_, rfl⟩
      rw [hmore] at hfields ⊢
      exact congrArg (· >>= fun (fields, rest) => some (object fields, rest)) hfields

theorem Plain.legible {j : Json} (h : Plain j) : Legible j := by
  induction h with
  | null =>
    intro fuel rest hfuel _
    cases fuel with
    | zero => simp [render, Ascii.null] at hfuel
    | succ fuel => rfl
  | bool value =>
    intro fuel rest hfuel _
    cases fuel with
    | zero => cases value <;> simp [render, Ascii.yes, Ascii.no] at hfuel
    | succ fuel => cases value <;> rfl
  | natural n => exact legible_ofNat n
  | text b => exact legible_ofUtf8 b
  | array plain ih => exact legible_array plain ih
  | object names _ ih => exact legible_object names ih

mutual

/-- The most arrays and objects that stand one within the other. -/
def depth : Json → Nat
  | .array items => depthItems items + 1
  | .object fields => depthFields fields + 1
  | _ => 0

def depthItems : List Json → Nat
  | [] => 0
  | item :: rest => max item.depth (depthItems rest)

def depthFields : List (Bytes × Json) → Nat
  | [] => 0
  | (_, value) :: rest => max value.depth (depthFields rest)

end

mutual

theorem clip_eq_self : ∀ (n : Nat) (j : Json), j.depth ≤ n → j.clip n = j
  | 0, .array items, h => by simp [depth] at h
  | 0, .object fields, h => by simp [depth] at h
  | n + 1, .array items, h => by
    rw [depth, Nat.add_le_add_iff_right] at h
    rw [clip, clipItems_eq_self n items h]
  | n + 1, .object fields, h => by
    rw [depth, Nat.add_le_add_iff_right] at h
    rw [clip, clipFields_eq_self n fields h]
  | _, .null, _ | _, .bool _, _ | _, .number _, _ | _, .string _, _ => by rw [clip] <;> simp

theorem clipItems_eq_self : ∀ (n : Nat) (items : List Json), depthItems items ≤ n →
    clipItems n items = items
  | _, [], _ => rfl
  | n, item :: rest, h => by
    rw [depthItems, Nat.max_le] at h
    rw [clipItems, clip_eq_self n item h.1, clipItems_eq_self n rest h.2]

theorem clipFields_eq_self : ∀ (n : Nat) (fields : List (Bytes × Json)), depthFields fields ≤ n →
    clipFields n fields = fields
  | _, [], _ => rfl
  | n, (name, value) :: rest, h => by
    rw [depthFields, Nat.max_le] at h
    rw [clipFields, clip_eq_self n value h.1, clipFields_eq_self n rest h.2]

end

def Shallow (j : Json) : Prop := j.depth ≤ maxDepth

/-- The text of a value that is built of naturals and texts reads back as that value. -/
theorem Plain.read?_render {j : Json} (h : Plain j) (shallow : j.Shallow) :
    read? j.render = some j := by
  have hread := h.legible (2 * j.render.length + 2) [] (by omega) parts_nil
  rw [List.append_nil] at hread
  rw [read?, hread]
  change some (j.clip maxDepth) = some j
  rw [clip_eq_self maxDepth j shallow]

theorem depthItems_le_iff {n : Nat} {items : List Json} :
    depthItems items ≤ n ↔ ∀ item ∈ items, item.depth ≤ n := by
  induction items with
  | nil => simp [depthItems]
  | cons item rest ih => rw [depthItems, Nat.max_le, ih, List.forall_mem_cons]

theorem depthFields_le_iff {n : Nat} {fields : List (Bytes × Json)} :
    depthFields fields ≤ n ↔ ∀ f ∈ fields, f.2.depth ≤ n := by
  induction fields with
  | nil => simp [depthFields]
  | cons f rest ih => rw [depthFields, Nat.max_le, ih, List.forall_mem_cons]

theorem depth_array_le {n : Nat} {items : List Json} (h : ∀ item ∈ items, item.depth ≤ n) :
    (array items).depth ≤ n + 1 :=
  Nat.succ_le_succ (depthItems_le_iff.2 h)

theorem depth_ofFields_le {n : Nat} {fields : List (String × Json)}
    (h : ∀ f ∈ fields, f.2.depth ≤ n) : (ofFields fields).depth ≤ n + 1 := by
  refine Nat.succ_le_succ (depthFields_le_iff.2 fun f hf => ?_)
  obtain ⟨g, hg, rfl⟩ := List.mem_map.1 hf
  exact h g hg

@[simp] theorem depth_ofNat (n : Nat) : (ofNat n).depth = 0 := rfl

@[simp] theorem depth_ofText (s : String) : (ofText s).depth = 0 := rfl

theorem depth_ofBytes_le (b : Bytes) : (ofBytes b).depth ≤ 1 :=
  depth_array_le (List.forall_mem_map.2 fun _ _ => Nat.le_refl 0)

theorem plain_ofBytes (b : Bytes) : Plain (ofBytes b) := by
  refine .array fun item hitem => ?_
  obtain ⟨x, -, rfl⟩ := List.mem_map.1 hitem
  exact .natural x.toNat

theorem plain_ofFields {fields : List (String × Json)} (plain : ∀ f ∈ fields, Plain f.2) :
    Plain (ofFields fields) := by
  refine .object (fun f hf => ?_) fun f hf => ?_ <;> obtain ⟨g, hg, rfl⟩ := List.mem_map.1 hf
  · exact ⟨_, rfl⟩
  · exact plain g hg

theorem members?_ofFields (names : List String) (fields : List (String × Json)) :
    (ofFields fields).members? names = names.mapM fun name =>
      match fields.filter fun (other, _) => other = name with
      | [] => some none
      | [(_, value)] => some (some value)
      | _ => none := by
  have htexts : (fields.map fun (name, value) =>
      ((Bytes.ofText name).flatMap escapeByte, value)).mapM (m := Option)
        (fun (name, value) => do return (← textOf? name, value)) = some fields := by
    rw [List.mapM_map]
    induction fields with
    | nil => rfl
    | cons f fields ih =>
      rw [List.mapM_cons, ih]
      simp [textOf?_ofText]
  rw [ofFields, members?, htexts]
  rfl

end IndexedTables.Json
