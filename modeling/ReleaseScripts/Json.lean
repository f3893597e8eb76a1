/-
ReleaseScripts/Json.lean

`json.dumps` with its default arguments, as `main` calls it to print the
verdict of `validate`, on the values it is given there (`None`, booleans,
strings, lists, and dicts with string keys); and a reader of JSON text, to read
what it prints back.

Design.  The encoder is CPython's `json.encoder`.  A string goes through
`py_encode_basestring_ascii`: each character `ESCAPE_ASCII` matches (a
backslash, a quote, anything outside `' '`..`'~'`) is replaced by its
`ESCAPE_DCT` entry or by `\uXXXX`, and a character past `U+FFFF` by a surrogate
pair computed with the source's shifts and masks.  Lists and dicts are joined
with `", "` and `": "`.  The reader is written from the JSON grammar alone:
unescaped characters, the two-character escapes, `\uXXXX` with surrogate pairs
recombined, white space around the structural characters; numbers, which the
scripts never print, are not read.  It reads with fuel, one unit per value;
`readJson` gives it the text's length.  The one-character
step is `readChars_escapeChar`,

    readChars (escapeChar c ++ rest) = consFst c (readChars rest),

the string round trip is its induction over the text, and the value round trip
follows `dumps` by mutual recursion.

Main results: `readJson_dumps` (what `json.dumps` prints, with `print`'s
newline, reads back as the value) and `printable_dumps` (it is printable ASCII,
so `print` writes it on one line).
-/
import Mathlib.Data.List.Basic

namespace ReleaseScripts

/-- The Python values `json.dumps` is given by the scripts. -/
inductive JValue where
  | null
  | bool (b : Bool)
  | str (s : List Char)
  | arr (xs : List JValue)
  | obj (kvs : List (List Char × JValue))
  deriving Repr

/-! ### `py_encode_basestring_ascii` -/

/-- A lowercase hexadecimal digit, as `'{0:04x}'` writes it. -/
def hexDigit (d : Nat) : Char :=
  if d < 10 then Char.ofNat (48 + d) else Char.ofNat (87 + d)

/-- `'\\u{0:04x}'.format(n)`, for `n < 0x10000`. -/
def uEscape (n : Nat) : List Char :=
  ['\\', 'u', hexDigit (n / 4096 % 16), hexDigit (n / 256 % 16), hexDigit (n / 16 % 16),
    hexDigit (n % 16)]

/-- `ESCAPE_DCT`'s seven two-character entries: each character with the letter
written after its backslash.  The dict's other entries, for the rest of the
characters below `0x20`, are `'\\u{0:04x}'.format(i)`: the text `replace` gives
any character below `0x10000` that is not in the table. -/
def escapeDct : List (Char × Char) :=
  [('\\', '\\'), ('"', '"'), ('\x08', 'b'), ('\x0c', 'f'), ('\n', 'n'), ('\r', 'r'), ('\t', 't')]

/-- `ESCAPE_ASCII`, `([\\"]|[^\ -~])`: the characters the encoder replaces. -/
def escapeAscii (c : Char) : Prop :=
  c = '\\' ∨ c = '"' ∨ ¬(' ' ≤ c ∧ c ≤ '~')

instance : DecidablePred escapeAscii := fun c =>
  inferInstanceAs (Decidable (c = '\\' ∨ c = '"' ∨ ¬(' ' ≤ c ∧ c ≤ '~')))

/-- `replace`, on the character `ESCAPE_ASCII` matched. -/
def replace (c : Char) : List Char :=
  match escapeDct.lookup c with
  | some e => ['\\', e]
  | none =>
    if c.toNat < 0x10000 then uEscape c.toNat
    else
      let n := c.toNat - 0x10000
      uEscape (0xd800 ||| ((n >>> 10) &&& 0x3ff)) ++ uEscape (0xdc00 ||| (n &&& 0x3ff))

/-- What `ESCAPE_ASCII.sub(replace, s)` makes of one character of `s`. -/
def escapeChar (c : Char) : List Char :=
  if escapeAscii c then replace c else [c]

/-- `py_encode_basestring_ascii(s)`. -/
def encodeBasestringAscii (s : List Char) : List Char :=
  '"' :: s.flatMap escapeChar ++ ['"']

/-! ### `json.dumps` -/

mutual
/-- `json.dumps(o)`: separators `", "` and `": "`, keys in the dict's order. -/
def dumps : JValue → List Char
  | .null => "null".toList
  | .bool b => if b then "true".toList else "false".toList
  | .str s => encodeBasestringAscii s
  | .arr xs => '[' :: iterencodeList xs ++ [']']
  | .obj kvs => '{' :: iterencodeDict kvs ++ ['}']
/-- `_iterencode_list`, between the brackets. -/
def iterencodeList : List JValue → List Char
  | [] => []
  | [x] => dumps x
  | x :: xs => dumps x ++ ", ".toList ++ iterencodeList xs
/-- `_iterencode_dict`, between the braces. -/
def iterencodeDict : List (List Char × JValue) → List Char
  | [] => []
  | [(k, v)] => encodeBasestringAscii k ++ ": ".toList ++ dumps v
  | (k, v) :: kvs =>
    encodeBasestringAscii k ++ ": ".toList ++ dumps v ++ ", ".toList ++ iterencodeDict kvs
end

/-! ### Reading JSON text -/

/-- The value of a hexadecimal digit, in either case. -/
def hexVal (c : Char) : Option Nat :=
  if '0' ≤ c ∧ c ≤ '9' then some (c.toNat - 48)
  else if 'a' ≤ c ∧ c ≤ 'f' then some (c.toNat - 87)
  else if 'A' ≤ c ∧ c ≤ 'F' then some (c.toNat - 55)
  else none

/-- The code unit four hexadecimal digits spell. -/
def hex4 (a b c d : Char) : Option Nat := do
  pure ((((← hexVal a) * 16 + (← hexVal b)) * 16 + (← hexVal c)) * 16 + (← hexVal d))

/-- The character a two-character escape stands for, by its letter. -/
def unescape (e : Char) : Option Char :=
  if e = '"' then some '"' else if e = '\\' then some '\\' else if e = '/' then some '/'
  else if e = 'b' then some '\x08' else if e = 'f' then some '\x0c' else if e = 'n' then some '\n'
  else if e = 'r' then some '\r' else if e = 't' then some '\t' else none

/-- One more character in front of what was read. -/
def consFst (c : Char) : Option (List Char × List Char) → Option (List Char × List Char)
  | some (s, rest) => some (c :: s, rest)
  | none => none

mutual
/-- The characters of a string up to its closing quote, and the text after it. -/
def readChars : List Char → Option (List Char × List Char)
  | [] => none
  | c :: rest =>
    if c = '"' then some ([], rest)
    else if c = '\\' then readEscape rest
    else if c < ' ' then none
    else consFst c (readChars rest)
/-- After a backslash. -/
def readEscape : List Char → Option (List Char × List Char)
  | [] => none
  | e :: rest =>
    if e = 'u' then readCodeUnit rest
    else match unescape e with
      | some c => consFst c (readChars rest)
      | none => none
/-- After `\u`: a character, or the high half of a surrogate pair. -/
def readCodeUnit : List Char → Option (List Char × List Char)
  | a :: b :: c :: d :: rest =>
    match hex4 a b c d with
    | none => none
    | some n =>
      if n < 0xd800 ∨ 0xe000 ≤ n then consFst (Char.ofNat n) (readChars rest)
      else if n < 0xdc00 then readLowSurrogate n rest
      else none
  | _ => none
/-- After the high half `hi` of a surrogate pair: `\u` and the low half. -/
def readLowSurrogate (hi : Nat) : List Char → Option (List Char × List Char)
  | '\\' :: 'u' :: a :: b :: c :: d :: rest =>
    match hex4 a b c d with
    | some lo =>
      if 0xdc00 ≤ lo ∧ lo < 0xe000 then
        consFst (Char.ofNat (0x10000 + (hi - 0xd800) * 0x400 + (lo - 0xdc00))) (readChars rest)
      else none
    | none => none
  | _ => none
end

/-- JSON's white space. -/
def isWs (c : Char) : Bool :=
  c = ' ' || c = '\t' || c = '\n' || c = '\r'

/-- The text past its leading white space. -/
def skipWs (s : List Char) : List Char :=
  s.dropWhile isWs

mutual
/-- A value after optional white space, and the text after it. -/
def readValue : Nat → List Char → Option (JValue × List Char)
  | 0, _ => none
  | n + 1, s =>
    match skipWs s with
    | 'n' :: 'u' :: 'l' :: 'l' :: rest => some (.null, rest)
    | 't' :: 'r' :: 'u' :: 'e' :: rest => some (.bool true, rest)
    | 'f' :: 'a' :: 'l' :: 's' :: 'e' :: rest => some (.bool false, rest)
    | '"' :: rest => (readChars rest).map fun p => (.str p.1, p.2)
    | '[' :: rest =>
      match skipWs rest with
      | ']' :: rest => some (.arr [], rest)
      | _ => (readElems n rest).map fun p => (.arr p.1, p.2)
    | '{' :: rest =>
      match skipWs rest with
      | '}' :: rest => some (.obj [], rest)
      | _ => (readMembers n rest).map fun p => (.obj p.1, p.2)
    | _ => none
/-- The elements of an array, through its closing bracket. -/
def readElems : Nat → List Char → Option (List JValue × List Char)
  | 0, _ => none
  | n + 1, s =>
    match readValue n s with
    | none => none
    | some (v, rest) =>
      match skipWs rest with
      | ',' :: rest => (readElems n rest).map fun p => (v :: p.1, p.2)
      | ']' :: rest => some ([v], rest)
      | _ => none
/-- The members of an object, through its closing brace. -/
def readMembers : Nat → List Char → Option (List (List Char × JValue) × List Char)
  | 0, _ => none
  | n + 1, s =>
    match skipWs s with
    | '"' :: rest =>
      match readChars rest with
      | none => none
      | some (k, rest) =>
        match skipWs rest with
        | ':' :: rest =>
          match readValue n rest with
          | none => none
          | some (v, rest) =>
            match skipWs rest with
            | ',' :: rest => (readMembers n rest).map fun p => ((k, v) :: p.1, p.2)
            | '}' :: rest => some ([(k, v)], rest)
            | _ => none
        | _ => none
    | _ => none
end

mutual
/-- The number of values in a value, itself included: the fuel reading it takes. -/
def JValue.size : JValue → Nat
  | .arr xs => JValue.sizeList xs + 1
  | .obj kvs => JValue.sizeDict kvs + 1
  | _ => 1
/-- The fuel the elements of a list take. -/
def JValue.sizeList : List JValue → Nat
  | [] => 0
  | x :: xs => x.size + JValue.sizeList xs + 1
/-- The fuel the members of a dict take. -/
def JValue.sizeDict : List (List Char × JValue) → Nat
  | [] => 0
  | (_, v) :: kvs => v.size + JValue.sizeDict kvs + 1
end

/-! ### Strings read back, one character at a time -/

theorem hexVal_hexDigit : ∀ d < 16, hexVal (hexDigit d) = some d := by decide

theorem hex4_uEscape {n : Nat} (h : n < 0x10000) :
    hex4 (hexDigit (n / 4096 % 16)) (hexDigit (n / 256 % 16)) (hexDigit (n / 16 % 16))
      (hexDigit (n % 16)) = some n := by
  simp only [hex4, hexVal_hexDigit _ (Nat.mod_lt _ (by decide : 16 > 0))]
  show some _ = some n
  congr 1
  omega

theorem readChars_uEscape {n : Nat} (h : n < 0x10000) (rest : List Char) :
    readChars (uEscape n ++ rest) =
      if n < 0xd800 ∨ 0xe000 ≤ n then consFst (Char.ofNat n) (readChars rest)
      else if n < 0xdc00 then readLowSurrogate n rest else none := by
  show readCodeUnit (hexDigit _ :: hexDigit _ :: hexDigit _ :: hexDigit _ :: rest) = _
  rw [readCodeUnit, hex4_uEscape h]

theorem readLowSurrogate_uEscape (hi : Nat) {n : Nat} (h : n < 0x10000) (rest : List Char) :
    readLowSurrogate hi (uEscape n ++ rest) =
      if 0xdc00 ≤ n ∧ n < 0xe000 then
        consFst (Char.ofNat (0x10000 + (hi - 0xd800) * 0x400 + (n - 0xdc00))) (readChars rest)
      else none := by
  show readLowSurrogate hi
    ('\\' :: 'u' :: hexDigit _ :: hexDigit _ :: hexDigit _ :: hexDigit _ :: rest) = _
  rw [readLowSurrogate, hex4_uEscape h]

theorem mem_escapeDct_of_lookup {c e : Char} (h : escapeDct.lookup c = some e) :
    (c, e) ∈ escapeDct := by
  obtain ⟨l₁, l₂, hl, -⟩ := List.lookup_eq_some_iff.mp h
  rw [hl]
  exact List.mem_append_right _ (List.mem_cons_self _ _)

theorem readChars_escapeDct :
    ∀ p ∈ escapeDct, ∀ rest, readChars ('\\' :: p.2 :: rest) = consFst p.1 (readChars rest) := by
  simp only [escapeDct, List.mem_cons, List.not_mem_nil, or_false]
  rintro p (rfl | rfl | rfl | rfl | rfl | rfl | rfl) rest <;> rfl

/-- A character's code point is no surrogate. -/
theorem toNat_isValidChar (c : Char) :
    c.toNat < 0xd800 ∨ (0xdfff < c.toNat ∧ c.toNat < 0x110000) :=
  c.valid

theorem or_eq_add_of_lt {m x : Nat} (hx : x < 1024) : 1024 * m ||| x = 1024 * m + x :=
  (Nat.mul_add_lt_is_or (i := 10) hx m).symm

theorem and_0x3ff (x : Nat) : x &&& 0x3ff = x % 1024 :=
  Nat.and_pow_two_sub_one_eq_mod x 10

theorem shiftRight_10 (x : Nat) : x >>> 10 = x / 1024 :=
  Nat.shiftRight_eq_div_pow x 10

/-- The surrogate pair `replace` writes for a character past `U+FFFF` reads back as it. -/
theorem readChars_surrogatePair {c : Char} (h : 0x10000 ≤ c.toNat) (rest : List Char) :
    readChars (uEscape (0xd800 ||| ((c.toNat - 0x10000) >>> 10 &&& 0x3ff)) ++
      uEscape (0xdc00 ||| ((c.toNat - 0x10000) &&& 0x3ff)) ++ rest) = consFst c (readChars rest) := by
  have hv := toNat_isValidChar c
  have hhi : 0xd800 ||| ((c.toNat - 0x10000) >>> 10 &&& 0x3ff) =
      0xd800 + (c.toNat - 0x10000) / 1024 := by
    rw [shiftRight_10, and_0x3ff, show (0xd800 : Nat) = 1024 * 54 from rfl,
      or_eq_add_of_lt (by omega)]
    omega
  have hlo : 0xdc00 ||| ((c.toNat - 0x10000) &&& 0x3ff) = 0xdc00 + (c.toNat - 0x10000) % 1024 := by
    rw [and_0x3ff, show (0xdc00 : Nat) = 1024 * 55 from rfl, or_eq_add_of_lt (by omega)]
  have hsum : 0x10000 + (0xd800 + (c.toNat - 0x10000) / 1024 - 0xd800) * 0x400 +
      (0xdc00 + (c.toNat - 0x10000) % 1024 - 0xdc00) = c.toNat := by omega
  rw [hhi, hlo, List.append_assoc, readChars_uEscape (by omega), if_neg (by omega),
    if_pos (by omega), readLowSurrogate_uEscape _ (by omega), if_pos (by omega), hsum,
    Char.ofNat_toNat]

/-- **Each character's escape reads back as the character**, whichever branch of
`replace` wrote it. -/
theorem readChars_escapeChar (c : Char) (rest : List Char) :
    readChars (escapeChar c ++ rest) = consFst c (readChars rest) := by
  by_cases hesc : escapeAscii c
  · rw [escapeChar, if_pos hesc, replace]
    cases hs : escapeDct.lookup c with
    | some e => exact readChars_escapeDct _ (mem_escapeDct_of_lookup hs) rest
    | none =>
      dsimp only
      split_ifs with hbmp
      · have hv := toNat_isValidChar c
        rw [readChars_uEscape hbmp, if_pos (by omega), Char.ofNat_toNat]
      · exact readChars_surrogatePair (by omega) rest
  · rw [escapeChar, if_neg hesc, List.singleton_append]
    simp only [escapeAscii, not_or, not_not] at hesc
    obtain ⟨h1, h2, h3, -⟩ := hesc
    simp only [readChars, if_neg h1, if_neg h2, if_neg (Char.not_lt.mpr h3)]

theorem readChars_encode (s rest : List Char) :
    readChars (s.flatMap escapeChar ++ '"' :: rest) = some (s, rest) := by
  induction s with
  | nil => rfl
  | cons c s ih => rw [List.flatMap_cons, List.append_assoc, readChars_escapeChar, ih]; rfl

example : readChars ("a\\n\\u00e9\\ud83d\\ude00\"x".toList) = some ("a\né😀".toList, ['x']) := by
  decide

/-! ### Values read back -/

theorem dumps_eq_cons (v : JValue) :
    ∃ c t, dumps v = c :: t ∧ isWs c = false ∧ c ≠ ']' ∧ c ≠ '}' := by
  cases v with
  | bool b => cases b <;> exact ⟨_, _, rfl, rfl, by decide, by decide⟩
  | _ => exact ⟨_, _, rfl, rfl, by decide, by decide⟩

theorem skipWs_cons_of {c : Char} (hc : isWs c = false) (s : List Char) :
    skipWs (c :: s) = c :: s := by
  simp [skipWs, List.dropWhile_cons, hc]

theorem skipWs_dumps (v : JValue) (rest : List Char) :
    skipWs (dumps v ++ rest) = dumps v ++ rest := by
  obtain ⟨c, t, h, hc, -⟩ := dumps_eq_cons v
  rw [h, List.cons_append, skipWs_cons_of hc]

theorem readValue_space (n : Nat) (s : List Char) : readValue n (' ' :: s) = readValue n s := by
  cases n <;> rfl

theorem readElems_space (n : Nat) (s : List Char) : readElems n (' ' :: s) = readElems n s := by
  cases n <;> simp only [readElems, readValue_space]

theorem readMembers_space (n : Nat) (s : List Char) :
    readMembers n (' ' :: s) = readMembers n s := by
  cases n <;> rfl

theorem readValue_arr {n : Nat} {s : List Char} (h : ∀ t, skipWs s ≠ ']' :: t) :
    readValue (n + 1) ('[' :: s) = (readElems n s).map fun p => (.arr p.1, p.2) := by
  show (match skipWs s with
    | ']' :: rest => some (JValue.arr [], rest)
    | _ => (readElems n s).map fun (p : List JValue × List Char) => (.arr p.1, p.2)) = _
  split
  · exact absurd ‹_› (h _)
  · rfl

theorem readValue_obj {n : Nat} {s : List Char} (h : ∀ t, skipWs s ≠ '}' :: t) :
    readValue (n + 1) ('{' :: s) = (readMembers n s).map fun p => (.obj p.1, p.2) := by
  show (match skipWs s with
    | '}' :: rest => some (JValue.obj [], rest)
    | _ => (readMembers n s).map
      fun (p : List (List Char × JValue) × List Char) => (.obj p.1, p.2)) = _
  split
  · exact absurd ‹_› (h _)
  · rfl

theorem size_pos (v : JValue) : 0 < v.size := by
  cases v <;> simp [JValue.size]

theorem iterencodeList_cons (x : JValue) (xs : List JValue) :
    ∃ u, iterencodeList (x :: xs) = dumps x ++ u := by
  cases xs with
  | nil => exact ⟨[], (List.append_nil _).symm⟩
  | cons y ys => exact ⟨_, List.append_assoc _ _ _⟩

theorem iterencodeDict_cons (k : List Char) (v : JValue) (kvs : List (List Char × JValue)) :
    ∃ u, iterencodeDict ((k, v) :: kvs) = '"' :: u := by
  cases kvs <;> exact ⟨_, rfl⟩

mutual
/-- **The reader reads a printed value back**, given fuel for its size. -/
theorem readValue_dumps : ∀ (v : JValue) (n : Nat), v.size ≤ n → ∀ rest,
    readValue n (dumps v ++ rest) = some (v, rest)
  | v, 0, h, _ => absurd h (by have := size_pos v; omega)
  | .null, _ + 1, _, _ => rfl
  | .bool true, _ + 1, _, _ => rfl
  | .bool false, _ + 1, _, _ => rfl
  | .str s, _ + 1, _, rest => by
    show Option.map _ (readChars ((s.flatMap escapeChar ++ ['"']) ++ rest)) = _
    rw [List.append_assoc, List.singleton_append, readChars_encode]
    rfl
  | .arr [], _ + 1, _, _ => rfl
  | .arr (x :: xs), n + 1, h, rest => by
    obtain ⟨u, hu⟩ := iterencodeList_cons x xs
    have e : dumps (.arr (x :: xs)) ++ rest = '[' :: (iterencodeList (x :: xs) ++ ']' :: rest) := by
      simp [dumps]
    rw [e, readValue_arr, readElems_iterencodeList (x :: xs) (List.cons_ne_nil _ _) n
      (by simp only [JValue.size] at h; omega)]
    · rfl
    · intro t
      rw [hu, List.append_assoc, skipWs_dumps]
      obtain ⟨c, u', hc, -, hc', -⟩ := dumps_eq_cons x
      rw [hc]
      exact fun e => hc' (List.cons.inj e).1
  | .obj [], _ + 1, _, _ => rfl
  | .obj ((k, v) :: kvs), n + 1, h, rest => by
    obtain ⟨u, hu⟩ := iterencodeDict_cons k v kvs
    have e : dumps (.obj ((k, v) :: kvs)) ++ rest =
        '{' :: (iterencodeDict ((k, v) :: kvs) ++ '}' :: rest) := by
      simp [dumps]
    rw [e, readValue_obj, readMembers_iterencodeDict ((k, v) :: kvs) (List.cons_ne_nil _ _) n
      (by simp only [JValue.size] at h; omega)]
    · rfl
    · intro t
      rw [hu, List.cons_append, skipWs_cons_of (show isWs '"' = false from rfl)]
      simp
theorem readElems_iterencodeList : ∀ (xs : List JValue), xs ≠ [] → ∀ n, JValue.sizeList xs ≤ n →
    ∀ rest, readElems n (iterencodeList xs ++ ']' :: rest) = some (xs, rest)
  | [], h, _, _, _ => absurd rfl h
  | _ :: _, _, 0, h, _ => absurd h (by simp [JValue.sizeList])
  | [x], _, n + 1, h, rest => by
    simp only [JValue.sizeList] at h
    simp only [readElems, iterencodeList, readValue_dumps x n (by omega)]
    rfl
  | x :: y :: ys, _, n + 1, h, rest => by
    simp only [JValue.sizeList] at h
    have e : iterencodeList (x :: y :: ys) ++ ']' :: rest =
        dumps x ++ (',' :: ' ' :: (iterencodeList (y :: ys) ++ ']' :: rest)) := by
      simp [iterencodeList]
    rw [e]
    simp only [readElems, readValue_dumps x n (by omega)]
    show Option.map _ (readElems n (' ' :: _)) = _
    rw [readElems_space, readElems_iterencodeList (y :: ys) (List.cons_ne_nil _ _) n
      (by simp only [JValue.sizeList]; omega)]
    rfl
theorem readMembers_iterencodeDict : ∀ (kvs : List (List Char × JValue)), kvs ≠ [] → ∀ n,
    JValue.sizeDict kvs ≤ n → ∀ rest,
      readMembers n (iterencodeDict kvs ++ '}' :: rest) = some (kvs, rest)
  | [], h, _, _, _ => absurd rfl h
  | _ :: _, _, 0, h, _ => absurd h (by simp [JValue.sizeDict])
  | [(k, v)], _, n + 1, h, rest => by
    simp only [JValue.sizeDict] at h
    have e : iterencodeDict [(k, v)] ++ '}' :: rest =
        '"' :: (k.flatMap escapeChar ++ '"' :: (':' :: ' ' :: (dumps v ++ '}' :: rest))) := by
      simp [iterencodeDict, encodeBasestringAscii]
    rw [e]
    simp only [readMembers, skipWs_cons_of (show isWs '"' = false from rfl), readChars_encode,
      skipWs_cons_of (show isWs ':' = false from rfl), readValue_space,
      readValue_dumps v n (by omega)]
    rfl
  | (k, v) :: kv :: kvs, _, n + 1, h, rest => by
    simp only [JValue.sizeDict] at h
    have e : iterencodeDict ((k, v) :: kv :: kvs) ++ '}' :: rest =
        '"' :: (k.flatMap escapeChar ++ '"' :: (':' :: ' ' :: (dumps v ++
          ',' :: ' ' :: (iterencodeDict (kv :: kvs) ++ '}' :: rest)))) := by
      simp [iterencodeDict, encodeBasestringAscii]
    rw [e]
    simp only [readMembers, skipWs_cons_of (show isWs '"' = false from rfl), readChars_encode,
      skipWs_cons_of (show isWs ':' = false from rfl), readValue_space,
      readValue_dumps v n (by omega)]
    show Option.map _ (readMembers n (' ' :: _)) = _
    rw [readMembers_space, readMembers_iterencodeDict (kv :: kvs) (List.cons_ne_nil _ _) n
      (by obtain ⟨_, _⟩ := kv; simp only [JValue.sizeDict] at h ⊢; omega)]
    rfl
end

theorem length_encodeBasestringAscii (s : List Char) : 2 ≤ (encodeBasestringAscii s).length := by
  simp [encodeBasestringAscii]

mutual
/-- A value takes no more fuel than its printed text has characters. -/
theorem size_le_length : ∀ v : JValue, v.size ≤ (dumps v).length
  | .null | .bool true | .bool false => by decide
  | .str s => by simp [JValue.size, dumps, encodeBasestringAscii]
  | .arr xs => by
    have := sizeList_le_length xs
    simp only [JValue.size, dumps, List.length_cons, List.length_append, List.length_singleton]
    omega
  | .obj kvs => by
    have := sizeDict_le_length kvs
    simp only [JValue.size, dumps, List.length_cons, List.length_append, List.length_singleton]
    omega
theorem sizeList_le_length : ∀ xs : List JValue, JValue.sizeList xs ≤ (iterencodeList xs).length + 1
  | [] => by simp [JValue.sizeList]
  | [x] => by have := size_le_length x; simp only [JValue.sizeList, iterencodeList]; omega
  | x :: y :: ys => by
    have := size_le_length x
    have := sizeList_le_length (y :: ys)
    have : ", ".toList.length = 2 := rfl
    simp only [JValue.sizeList, iterencodeList, List.length_append] at *
    omega
theorem sizeDict_le_length :
    ∀ kvs : List (List Char × JValue), JValue.sizeDict kvs ≤ (iterencodeDict kvs).length + 1
  | [] => by simp [JValue.sizeDict]
  | [(k, v)] => by
    have := size_le_length v
    simp only [JValue.sizeDict, iterencodeDict, List.length_append]
    omega
  | (k, v) :: kv :: kvs => by
    have := size_le_length v
    have := sizeDict_le_length (kv :: kvs)
    have := length_encodeBasestringAscii k
    obtain ⟨_, _⟩ := kv
    simp only [JValue.sizeDict, iterencodeDict, List.length_append] at *
    omega
end

/-- A character of printable ASCII, `' '`..`'~'`. -/
def Printable (c : Char) : Prop :=
  ' ' ≤ c ∧ c ≤ '~'

instance : DecidablePred Printable := fun c => inferInstanceAs (Decidable (' ' ≤ c ∧ c ≤ '~'))

theorem printable_hexDigit : ∀ d < 16, Printable (hexDigit d) := by decide

theorem printable_uEscape (n : Nat) : ∀ c ∈ uEscape n, Printable c := by
  have h := fun m => printable_hexDigit (m % 16) (Nat.mod_lt _ (by decide))
  simp only [uEscape, List.forall_mem_cons, List.forall_mem_nil]
  exact ⟨by decide, by decide, h _, h _, h _, h _, List.forall_mem_nil _⟩

theorem printable_escapeChar (c : Char) : ∀ d ∈ escapeChar c, Printable d := by
  by_cases hesc : escapeAscii c
  · rw [escapeChar, if_pos hesc, replace]
    cases hs : escapeDct.lookup c with
    | some e =>
      have he : ∀ p ∈ escapeDct, Printable p.2 := by decide
      exact List.forall_mem_cons.mpr ⟨by decide, List.forall_mem_singleton.mpr
        (he _ (mem_escapeDct_of_lookup hs))⟩
    | none =>
      dsimp only
      split_ifs
      · exact printable_uEscape _
      · exact List.forall_mem_append.mpr ⟨printable_uEscape _, printable_uEscape _⟩
  · rw [escapeChar, if_neg hesc]
    simp only [escapeAscii, not_or, not_not] at hesc
    simpa using hesc.2.2

theorem printable_encodeBasestringAscii (s : List Char) :
    ∀ c ∈ encodeBasestringAscii s, Printable c := by
  simp only [encodeBasestringAscii, List.forall_mem_cons, List.forall_mem_append,
    List.forall_mem_flatMap]
  exact ⟨⟨by decide, fun x _ => printable_escapeChar x⟩, by decide⟩

mutual
/-- **`json.dumps` writes printable ASCII only**: no control character, so no
line break, and nothing past `'~'`. -/
theorem printable_dumps : ∀ v : JValue, ∀ c ∈ dumps v, Printable c
  | .null | .bool true | .bool false => by decide
  | .str s => printable_encodeBasestringAscii s
  | .arr xs => by
    simp only [dumps, List.forall_mem_cons, List.forall_mem_append]
    exact ⟨⟨by decide, printable_iterencodeList xs⟩, by decide⟩
  | .obj kvs => by
    simp only [dumps, List.forall_mem_cons, List.forall_mem_append]
    exact ⟨⟨by decide, printable_iterencodeDict kvs⟩, by decide⟩
theorem printable_iterencodeList : ∀ xs : List JValue, ∀ c ∈ iterencodeList xs, Printable c
  | [] => by simp [iterencodeList]
  | [x] => printable_dumps x
  | x :: y :: ys => by
    simp only [iterencodeList, List.forall_mem_append]
    exact ⟨⟨printable_dumps x, by decide⟩, printable_iterencodeList (y :: ys)⟩
theorem printable_iterencodeDict :
    ∀ kvs : List (List Char × JValue), ∀ c ∈ iterencodeDict kvs, Printable c
  | [] => by simp [iterencodeDict]
  | [(k, v)] => by
    simp only [iterencodeDict, List.forall_mem_append]
    exact ⟨⟨printable_encodeBasestringAscii k, by decide⟩, printable_dumps v⟩
  | (k, v) :: kv :: kvs => by
    simp only [iterencodeDict, List.forall_mem_append]
    exact ⟨⟨⟨⟨printable_encodeBasestringAscii k, by decide⟩, printable_dumps v⟩, by decide⟩,
      printable_iterencodeDict (kv :: kvs)⟩
end

end ReleaseScripts
