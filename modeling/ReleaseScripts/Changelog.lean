/-
ReleaseScripts/Changelog.lean

`update_changelog`: the new version's section spliced into CHANGELOG.md before
the first version header, past the Unreleased heading, whose version is older.

Design.  Reading and writing the two files is left out: the function takes the
changelog's text and the entries file's text and returns the text it writes,
`none` where `Version(version.lstrip('v'))` raises and nothing is written.
`packaging`'s `Version` is a parameter, a parser `parseVersion` into a linearly
ordered type that fails where `Version` raises; `releaseVersion` is such a
parser for plain release numbers, used at the concrete inputs below.  The scan
over the header matches is `insertPosition`, the loop of the source, and
`insertPosition_eq_find` says once what it computes.  `\d` is the class of
Unicode decimal digits of Python 3.11's `re` (Unicode 14.0).

Main results: `updateChangelog_splice` (the text written is the old text with
the new section, preceded by at most one newline, spliced in at one offset that
lies past the Unreleased heading and at a line start or at the start of a
version header), `unreleasedPattern_search_rest` (the Unreleased match is never
followed by a newline, so the branch that adds none is never taken),
`updateChangelog_of_not_older` (a version no newer than every listed one goes
above all of them) and `versionPattern_matchHere_newSection` (the header written
reads back through the script's own header pattern).
-/
import Mathlib.Data.List.Lex
import ReleaseScripts.Regex

namespace ReleaseScripts

/-! ### The two patterns -/

/-- The first digit of each run of ten decimal digits in Unicode 14.0; the fifty
mathematical digits `U+1D7CE`–`U+1D7FF` are the only digits outside such a run. -/
def decimalZeros : List Nat :=
  [0x30, 0x660, 0x6f0, 0x7c0, 0x966, 0x9e6, 0xa66, 0xae6, 0xb66, 0xbe6, 0xc66, 0xce6, 0xd66,
    0xde6, 0xe50, 0xed0, 0xf20, 0x1040, 0x1090, 0x17e0, 0x1810, 0x1946, 0x19d0, 0x1a80, 0x1a90,
    0x1b50, 0x1bb0, 0x1c40, 0x1c50, 0xa620, 0xa8d0, 0xa900, 0xa9d0, 0xa9f0, 0xaa50, 0xabf0,
    0xff10, 0x104a0, 0x10d30, 0x11066, 0x110f0, 0x11136, 0x111d0, 0x112f0, 0x11450, 0x114d0,
    0x11650, 0x116c0, 0x11730, 0x118e0, 0x11950, 0x11c50, 0x11d50, 0x11da0, 0x16a60, 0x16ac0,
    0x16b50, 0x1e140, 0x1e2f0, 0x1e950, 0x1fbf0]

/-- `\d` in a `str` pattern: a Unicode decimal digit (category Nd). -/
def isDecimal (c : Char) : Bool :=
  decimalZeros.any (fun z => z ≤ c.toNat && c.toNat < z + 10) ||
    (0x1D7CE ≤ c.toNat && c.toNat < 0x1D800)

/-- `\d{n}`. -/
def Re.decimals : Nat → Re
  | 0 => .eps
  | n + 1 => .seq (.cls isDecimal) (Re.decimals n)

/-- `version_pattern`, `## \[([^\]]+)\] - \d{4}-\d{2}-\d{2}`. -/
def versionPattern : Re :=
  .seq (.lit "## [".toList) <| .seq (.group (.rep (· != ']') 1 true)) <|
    .seq (.lit "] - ".toList) <| .seq (.decimals 4) <| .seq (.lit ['-']) <|
      .seq (.decimals 2) <| .seq (.lit ['-']) (.decimals 2)

/-- `## \[Unreleased\]\s*\n`. -/
def unreleasedPattern : Re :=
  .seq (.lit "## [Unreleased]".toList) (.seq (.rep isSpace 0 true) (.lit ['\n']))

/-! ### `update_changelog` -/

/-- `version.lstrip('v')`. -/
def lstripV (s : List Char) : List Char :=
  s.dropWhile (· == 'v')

/-- `new_section`, `f"## [{version}] - {date}\n\n{changelog_entries}\n\n"`. -/
def newSection (version date changelogEntries : List Char) : List Char :=
  "## [".toList ++ version ++ "] - ".toList ++ date ++ "\n\n".toList ++ changelogEntries ++
    "\n\n".toList

/-- `search_start`: the end of the first Unreleased heading match, or `0`. -/
def searchStart (content : List Char) : Nat :=
  match unreleasedPattern.search content with
  | some unreleasedMatch => unreleasedMatch.stop
  | none => 0

section Update

variable {V : Type} [LinearOrder V] (parseVersion : List Char → Option V)

/-- `Version(match.group(1).lstrip('v'))`; `none` where it raises. -/
def headerVersion (m : ReMatch) : Option V :=
  m.group.bind fun g => parseVersion (lstripV g)

/-- The loop over the header matches: the start of the first one at or after
`searchStart` whose version parses and is older than `newVersion`. -/
def insertPosition (newVersion : V) (searchStart : Nat) : List ReMatch → Option Nat
  | [] => none
  | m :: ms =>
    if m.start < searchStart then insertPosition newVersion searchStart ms
    else match headerVersion parseVersion m with
      | some existing =>
        if newVersion > existing then some m.start else insertPosition newVersion searchStart ms
      | none => insertPosition newVersion searchStart ms

/-- `update_changelog`, from the changelog's text and the entries file's text to
the text written; `none` where `Version(version.lstrip('v'))` raises. -/
def updateChangelog (content version date entries : List Char) : Option (List Char) :=
  let newSection := newSection version date (strip entries)
  (parseVersion (lstripV version)).map fun newVersion =>
    match insertPosition parseVersion newVersion (searchStart content)
        (versionPattern.finditer content) with
    | some insertPosition => content.take insertPosition ++ newSection ++ content.drop insertPosition
    | none =>
      match unreleasedPattern.search content with
      | some unreleasedMatch =>
        if (content.drop unreleasedMatch.stop).take 1 ≠ ['\n'] then
          content.take unreleasedMatch.stop ++ ['\n'] ++ newSection ++
            content.drop unreleasedMatch.stop
        else content.take unreleasedMatch.stop ++ newSection ++ content.drop unreleasedMatch.stop
      | none => newSection ++ content

end Update

/-- A release number `N(.N)*` as `packaging` orders it: its numbers with the
trailing zeros dropped, compared as lists.  It reads release numbers only (no
epoch, pre-, post-, dev- or local part, no surrounding space), so it stands for
`Version` at such inputs. -/
def releaseVersion (s : List Char) : Option (List Nat) :=
  let parts := s.splitOn '.'
  if parts.all fun p => !p.isEmpty && p.all Char.isDigit then
    some ((parts.map fun p => p.foldl (fun n c => 10 * n + (c.toNat - 48)) 0).reverse.dropWhile
      (· == 0)).reverse
  else none

/-! ### The Unreleased heading -/

theorem unreleasedPattern_sound {prev : Option Char} {cs : List Char} {g : Option (List Char)}
    {rest : List Char} (h : unreleasedPattern.matchHere prev cs = some (g, rest)) :
    ∃ y, cs = "## [Unreleased]".toList ++ y ++ '\n' :: rest := by
  obtain ⟨cs', rfl, h₁⟩ := Re.run_lit_sound "## [Unreleased]".toList h
  rw [Re.run_seq, Re.run_rep] at h₁
  obtain ⟨y, rest', rfl, h₂⟩ := repRun_sound h₁
  obtain ⟨rest'', rfl, h₃⟩ := Re.run_lit_sound ['\n'] h₂
  cases h₃
  exact ⟨y, by simp⟩

/-- A greedy `\s*` before a newline gives back only the last newline of its run:
the text after the match never starts with another newline. -/
theorem repRun_spaces_newline {k : Option Char → List Char → Option Res}
    (hread : ∀ prev cs res, k prev cs = some res → cs = '\n' :: res.2)
    (hnewline : ∀ prev cs, (k prev ('\n' :: cs)).isSome) :
    ∀ {n prev cs res}, repRun isSpace true k n prev cs = some res → res.2.head? ≠ some '\n'
  | n, prev, [], res, h => by
    rw [repRun] at h
    split at h
    · cases hread _ _ _ h
    · cases h
  | n, prev, c :: cs, res, h => by
    rw [repRun] at h
    simp only [if_true, Option.or_eq_some] at h
    rcases h with hmore | ⟨hmore, hstop⟩
    · split at hmore
      · exact repRun_spaces_newline hread hnewline hmore
      · cases hmore
    · split at hstop
      · obtain ⟨rfl, hcs⟩ := List.cons.inj (hread _ _ _ hstop)
        subst ‹n = 0›
        rw [← hcs]
        cases cs with
        | nil => simp
        | cons d cs =>
          rintro ⟨⟩
          rw [if_pos isSpace_newline, repRun] at hmore
          simp only [if_true, Option.or_eq_none] at hmore
          simpa [hmore.2] using hnewline (some '\n') cs
      · cases hstop

theorem unreleasedPattern_rest {prev : Option Char} {cs : List Char} {g : Option (List Char)}
    {rest : List Char} (h : unreleasedPattern.matchHere prev cs = some (g, rest)) :
    rest.head? ≠ some '\n' := by
  obtain ⟨cs', -, h₁⟩ := Re.run_lit_sound "## [Unreleased]".toList h
  rw [Re.run_seq, Re.run_rep] at h₁
  refine repRun_spaces_newline (fun prev cs res hk => ?_) (fun prev cs => ?_) h₁
  · obtain ⟨rest', rfl, hk'⟩ := Re.run_lit_sound ['\n'] hk
    cases hk'
    rfl
  · rw [show '\n' :: cs = ['\n'] ++ cs from rfl, Re.run_lit_append]
    rfl

/-- The Unreleased match ends with a newline, and what follows it does not start
with one. -/
theorem unreleasedPattern_search_split {content : List Char} {u : ReMatch}
    (h : unreleasedPattern.search content = some u) :
    ∃ pfx rest, content = pfx ++ '\n' :: rest ∧ u.stop = pfx.length + 1 ∧
      (content.drop u.stop).take 1 ≠ ['\n'] := by
  obtain ⟨x, y, rest, rfl, -, hstop, hm⟩ := Re.search_sound h
  obtain ⟨z, hz⟩ := unreleasedPattern_sound hm
  obtain rfl : y = "## [Unreleased]".toList ++ z ++ ['\n'] :=
    List.append_cancel_right (hz.trans (by simp))
  have hc : x ++ ("## [Unreleased]".toList ++ z ++ ['\n']) ++ rest =
      (x ++ "## [Unreleased]".toList ++ z) ++ '\n' :: rest := by simp
  have hlen : u.stop = (x ++ "## [Unreleased]".toList ++ z).length + 1 := by
    rw [hstop]
    simp only [List.append_assoc, List.length_append, List.length_singleton]
    omega
  refine ⟨_, rest, hc, hlen, ?_⟩
  rw [hc, hlen, List.drop_append, List.drop_one, List.tail_cons]
  cases rest with
  | nil => simp
  | cons c rest => simpa using unreleasedPattern_rest hm

/-- **The Unreleased match is never followed by a newline**: the greedy `\s*` takes
every newline of the blank run but the one `\n` needs, so `content[end:end+1]` is
never `'\n'` and the branch that adds no newline is never taken. -/
theorem unreleasedPattern_search_rest {content : List Char} {u : ReMatch}
    (h : unreleasedPattern.search content = some u) : (content.drop u.stop).take 1 ≠ ['\n'] := by
  obtain ⟨-, -, -, -, hrest⟩ := unreleasedPattern_search_split h
  exact hrest

theorem unreleasedPattern_search_rest_blank_line :
    unreleasedPattern.search "## [Unreleased]\n\n## [1.0.0] - 2024-01-01\n".toList = some ⟨0, 17, none⟩ ∧
      ("## [Unreleased]\n\n## [1.0.0] - 2024-01-01\n".toList.drop 17).take 1 ≠ ['\n'] :=
  ⟨by decide, unreleasedPattern_search_rest (u := ⟨0, 17, none⟩) (by decide)⟩

/-! ### The scan -/

section Scan

variable {V : Type} [LinearOrder V] (parseVersion : List Char → Option V)

/-- The test of one round of the loop: the match is not before `searchStart`, its
version parses, and the new version is greater. -/
def isOlderAt (newVersion : V) (searchStart : Nat) (m : ReMatch) : Bool :=
  decide (searchStart ≤ m.start) &&
    match headerVersion parseVersion m with
    | some existing => decide (existing < newVersion)
    | none => false

theorem isOlderAt_iff {newVersion : V} {searchStart : Nat} {m : ReMatch} :
    isOlderAt parseVersion newVersion searchStart m = true ↔
      searchStart ≤ m.start ∧ ∃ e, headerVersion parseVersion m = some e ∧ e < newVersion := by
  unfold isOlderAt
  cases headerVersion parseVersion m <;> simp

theorem isOlderAt_eq_false_iff {newVersion : V} {searchStart : Nat} {m : ReMatch} :
    isOlderAt parseVersion newVersion searchStart m = false ↔
      (searchStart ≤ m.start → ∀ e, headerVersion parseVersion m = some e → newVersion ≤ e) := by
  rw [← Bool.not_eq_true, isOlderAt_iff]
  simp only [not_and, not_exists, not_lt]

/-- The loop returns the start of the first match that passes the round's test. -/
theorem insertPosition_eq_find (newVersion : V) (searchStart : Nat) (ms : List ReMatch) :
    insertPosition parseVersion newVersion searchStart ms =
      (ms.find? (isOlderAt parseVersion newVersion searchStart)).map ReMatch.start := by
  induction ms with
  | nil => rfl
  | cons m ms ih =>
    rw [insertPosition]
    by_cases hs : m.start < searchStart
    · rw [if_pos hs, ih, List.find?_cons_of_neg _ (by simp [isOlderAt_iff, hs])]
    · rw [if_neg hs]
      cases hv : headerVersion parseVersion m with
      | none => rw [ih, List.find?_cons_of_neg _ (by simp [isOlderAt_iff, hv])]
      | some e =>
        dsimp only
        by_cases he : e < newVersion
        · rw [if_pos he, List.find?_cons_of_pos _ (isOlderAt_iff parseVersion |>.mpr
            ⟨not_lt.mp hs, e, hv, he⟩)]
          rfl
        · rw [if_neg he, ih, List.find?_cons_of_neg _ (by simp [isOlderAt_iff, hv, he])]

theorem insertPosition_mem {newVersion : V} {searchStart k : Nat} {ms : List ReMatch}
    (h : insertPosition parseVersion newVersion searchStart ms = some k) :
    ∃ m ∈ ms, m.start = k ∧ searchStart ≤ m.start := by
  rw [insertPosition_eq_find, Option.map_eq_some'] at h
  obtain ⟨m, hm, rfl⟩ := h
  exact ⟨m, List.mem_of_find?_eq_some hm, rfl, ((isOlderAt_iff parseVersion).mp (List.find?_some hm)).1⟩

/-- **The scan stops at the first older version past the boundary**: it finds `k`
exactly when `k` starts a match at or after `searchStart` whose version parses and
is older than the new one, and every match before it at or after `searchStart`
whose version parses is at least as new. -/
theorem insertPosition_eq_some_iff (newVersion : V) (searchStart k : Nat) (ms : List ReMatch) :
    insertPosition parseVersion newVersion searchStart ms = some k ↔
      ∃ pre m post, ms = pre ++ m :: post ∧ m.start = k ∧ searchStart ≤ m.start ∧
        (∃ e, headerVersion parseVersion m = some e ∧ e < newVersion) ∧
        ∀ m' ∈ pre, searchStart ≤ m'.start →
          ∀ e, headerVersion parseVersion m' = some e → newVersion ≤ e := by
  rw [insertPosition_eq_find, Option.map_eq_some']
  constructor
  · rintro ⟨m, hm, rfl⟩
    obtain ⟨hold, pre, post, rfl, hpre⟩ := List.find?_eq_some.mp hm
    obtain ⟨hs, hold⟩ := (isOlderAt_iff parseVersion).mp hold
    refine ⟨pre, m, post, rfl, rfl, hs, hold, fun m' hm' => ?_⟩
    rw [← isOlderAt_eq_false_iff, ← Bool.not_eq_true']
    exact hpre m' hm'
  · rintro ⟨pre, m, post, rfl, rfl, hs, hold, hpre⟩
    refine ⟨m, List.find?_eq_some.mpr ⟨(isOlderAt_iff parseVersion).mpr ⟨hs, hold⟩, pre, post, rfl,
      fun m' hm' => ?_⟩, rfl⟩
    rw [Bool.not_eq_true', isOlderAt_eq_false_iff]
    exact hpre m' hm'

theorem insertPosition_eq_none_iff (newVersion : V) (searchStart : Nat) (ms : List ReMatch) :
    insertPosition parseVersion newVersion searchStart ms = none ↔
      ∀ m ∈ ms, searchStart ≤ m.start → ∀ e, headerVersion parseVersion m = some e → newVersion ≤ e := by
  simp only [insertPosition_eq_find, Option.map_eq_none', List.find?_eq_none, Bool.not_eq_true,
    isOlderAt_eq_false_iff]

end Scan

/-! ### Where the section goes -/

section Splice

variable {V : Type} [LinearOrder V] (parseVersion : List Char → Option V)

theorem searchStart_of_search {content : List Char} {u : ReMatch}
    (h : unreleasedPattern.search content = some u) : searchStart content = u.stop := by
  rw [searchStart, h]

theorem searchStart_of_search_none {content : List Char}
    (h : unreleasedPattern.search content = none) : searchStart content = 0 := by
  rw [searchStart, h]

/-- **`update_changelog` splices the new section in once.**  The text written is
the old text with the new section, after at most one newline, inserted at one
offset `k`: not before the end of the Unreleased heading match, and either at a
line start or at the start of a version-header match, which the unanchored
pattern may find inside a line. -/
theorem updateChangelog_splice (content version date entries : List Char) (newVersion : V)
    (hv : parseVersion (lstripV version) = some newVersion) :
    ∃ k pre, updateChangelog parseVersion content version date entries =
        some (content.take k ++ pre ++ newSection version date (strip entries) ++ content.drop k) ∧
      (pre = [] ∨ pre = ['\n']) ∧ k ≤ content.length ∧ searchStart content ≤ k ∧
      (k = 0 ∨ content[k - 1]? = some '\n' ∨ ∃ m ∈ versionPattern.finditer content, m.start = k) := by
  simp only [updateChangelog, hv, Option.map_some']
  split
  · rename_i k hk
    obtain ⟨m, hm, rfl, hs⟩ := insertPosition_mem parseVersion hk
    have hlt := (Re.findAll_start hm).2
    exact ⟨m.start, [], by simp, .inl rfl, by omega, hs, .inr (.inr ⟨m, hm, rfl⟩)⟩
  · split
    · rename_i u hu
      obtain ⟨pfx, rest, hc, hstop, -⟩ := unreleasedPattern_search_split hu
      have hk : u.stop ≤ content.length ∧ content[u.stop - 1]? = some '\n' := by
        subst hc
        rw [hstop, Nat.add_sub_cancel, List.getElem?_append_right (le_refl _), Nat.sub_self]
        exact ⟨by simp, by simp⟩
      refine ⟨u.stop, ?_⟩
      split
      · exact ⟨['\n'], rfl, .inr rfl, hk.1, (searchStart_of_search hu).le, .inr (.inl hk.2)⟩
      · exact ⟨[], by simp, .inl rfl, hk.1, (searchStart_of_search hu).le, .inr (.inl hk.2)⟩
    · rename_i hu
      exact ⟨0, [], by simp, .inl rfl, Nat.zero_le _, (searchStart_of_search_none hu).le, .inl rfl⟩

theorem updateChangelog_splice_v_prefixed :
    releaseVersion (lstripV "v2.0.0".toList) = some [2] ∧
    ∃ k pre, updateChangelog releaseVersion "## [Unreleased]\n\n## [1.0.0] - 2024-01-01\n".toList
        "v2.0.0".toList "2024-02-02".toList "- y\n".toList =
        some ("## [Unreleased]\n\n## [1.0.0] - 2024-01-01\n".toList.take k ++ pre ++
          newSection "v2.0.0".toList "2024-02-02".toList (strip "- y\n".toList) ++
          "## [Unreleased]\n\n## [1.0.0] - 2024-01-01\n".toList.drop k) ∧
      (pre = [] ∨ pre = ['\n']) ∧ k ≤ "## [Unreleased]\n\n## [1.0.0] - 2024-01-01\n".toList.length ∧
      searchStart "## [Unreleased]\n\n## [1.0.0] - 2024-01-01\n".toList ≤ k ∧
      (k = 0 ∨ "## [Unreleased]\n\n## [1.0.0] - 2024-01-01\n".toList[k - 1]? = some '\n' ∨
        ∃ m ∈ versionPattern.finditer "## [Unreleased]\n\n## [1.0.0] - 2024-01-01\n".toList, m.start = k) :=
  ⟨by decide, updateChangelog_splice releaseVersion _ _ _ _ [2] (by decide)⟩

/-- A header of level three holds the level-two pattern from its second `#` on, so
the new section goes in after the first `#`, inside that line: no splice at a line
start gives the text written. -/
theorem updateChangelog_inside_heading_line :
    ¬∃ k pre, (pre = [] ∨ pre = ['\n']) ∧
      (k = 0 ∨ "### [1.0.0] - 2024-01-01\n".toList[k - 1]? = some '\n') ∧
      updateChangelog releaseVersion "### [1.0.0] - 2024-01-01\n".toList "2.0.0".toList
          "2024-02-02".toList "- y".toList =
        some ("### [1.0.0] - 2024-01-01\n".toList.take k ++ pre ++
          newSection "2.0.0".toList "2024-02-02".toList (strip "- y".toList) ++
          "### [1.0.0] - 2024-01-01\n".toList.drop k) := by
  rintro ⟨k, pre, hpre, hk, h⟩
  have hout : updateChangelog releaseVersion "### [1.0.0] - 2024-01-01\n".toList "2.0.0".toList
      "2024-02-02".toList "- y".toList =
      some "### [2.0.0] - 2024-02-02\n\n- y\n\n## [1.0.0] - 2024-01-01\n".toList := by decide
  have hline : ∀ i < 25, "### [1.0.0] - 2024-01-01\n".toList[i]? = some '\n' → i = 24 := by decide
  have hlen : "### [1.0.0] - 2024-01-01\n".toList.length = 25 ∧
      (newSection "2.0.0".toList "2024-02-02".toList (strip "- y".toList)).length = 30 ∧
      "### [2.0.0] - 2024-02-02\n\n- y\n\n## [1.0.0] - 2024-01-01\n".toList.length = 55 := by
    decide
  rw [hout, Option.some.injEq] at h
  have hpre' := congrArg List.length h
  simp only [List.length_append, List.length_take, List.length_drop, hlen] at hpre'
  obtain rfl : pre = [] := by
    rcases hpre with rfl | rfl
    · rfl
    · simp at hpre'; omega
  rcases hk with rfl | hk
  · exact absurd h (by decide)
  · have hi : k - 1 < 25 := hlen.1 ▸ (List.getElem?_eq_some_iff.mp hk).1
    obtain rfl : k = 25 := by have := hline (k - 1) hi hk; omega
    exact absurd h (by decide)

/-- **A version no newer than every listed one goes above all of them.**  When no
header at or after the boundary names an older version, nothing stops the scan, and
the section goes right after the Unreleased heading, after the newline that the
match never leaves behind, or at the top of the file: above every header past the
boundary, whose versions are all at least as new. -/
theorem updateChangelog_of_not_older {content version date entries : List Char} {newVersion : V}
    (hv : parseVersion (lstripV version) = some newVersion)
    (hnewer : ∀ m ∈ versionPattern.finditer content, searchStart content ≤ m.start →
      ∀ e, headerVersion parseVersion m = some e → newVersion ≤ e) :
    updateChangelog parseVersion content version date entries =
      some (content.take (searchStart content) ++
        (if (unreleasedPattern.search content).isSome then ['\n'] else []) ++
        newSection version date (strip entries) ++ content.drop (searchStart content)) := by
  have hnone := (insertPosition_eq_none_iff parseVersion newVersion _ _).mpr hnewer
  simp only [updateChangelog, hv, hnone, Option.map_some']
  cases hu : unreleasedPattern.search content with
  | none => simp [searchStart_of_search_none hu]
  | some u =>
    obtain ⟨-, -, -, -, hafter⟩ := unreleasedPattern_search_split hu
    simp only [if_pos hafter, searchStart_of_search hu, Option.isSome_some, if_true]

theorem updateChangelog_of_not_older_at_top :
    releaseVersion (lstripV "0.9.0".toList) = some [0, 9] ∧
    updateChangelog releaseVersion "## [1.0.0] - 2024-01-01\n".toList "0.9.0".toList
        "2024-02-02".toList "- y".toList =
      some ("## [1.0.0] - 2024-01-01\n".toList.take (searchStart "## [1.0.0] - 2024-01-01\n".toList) ++
        (if (unreleasedPattern.search "## [1.0.0] - 2024-01-01\n".toList).isSome then ['\n'] else []) ++
        newSection "0.9.0".toList "2024-02-02".toList (strip "- y".toList) ++
        "## [1.0.0] - 2024-01-01\n".toList.drop (searchStart "## [1.0.0] - 2024-01-01\n".toList)) :=
  ⟨by decide, updateChangelog_of_not_older releaseVersion
    (show releaseVersion (lstripV "0.9.0".toList) = some [0, 9] by decide) (by decide)⟩

theorem sublist_take_append_drop (l x : List Char) (k : Nat) :
    l.Sublist (l.take k ++ x ++ l.drop k) := by
  simpa only [List.take_append_drop] using
    (List.sublist_append_left (l.take k) x).append (List.Sublist.refl (l.drop k))

/-- What a text written can be: the old text with the new section, after at most
one newline, inserted at one offset. -/
theorem updateChangelog_eq_insert {content version date entries t : List Char}
    (h : updateChangelog parseVersion content version date entries = some t) :
    ∃ k pre, (pre = [] ∨ pre = ['\n']) ∧
      t = content.take k ++ (pre ++ newSection version date (strip entries)) ++ content.drop k := by
  obtain ⟨newVersion, -, rfl⟩ := Option.map_eq_some'.mp h
  split
  · exact ⟨_, [], .inl rfl, rfl⟩
  · split
    · rename_i u _
      split
      · exact ⟨u.stop, ['\n'], .inr rfl, by simp⟩
      · exact ⟨u.stop, [], .inl rfl, rfl⟩
    · exact ⟨0, [], .inl rfl, by simp⟩

/-- The text written keeps the old text, in order. -/
theorem updateChangelog_sublist {content version date entries t : List Char}
    (h : updateChangelog parseVersion content version date entries = some t) :
    content.Sublist t := by
  obtain ⟨k, pre, -, rfl⟩ := updateChangelog_eq_insert parseVersion h
  exact sublist_take_append_drop _ _ _

/-- The text written holds the new section in one piece. -/
theorem newSection_infix_updateChangelog {content version date entries t : List Char}
    (h : updateChangelog parseVersion content version date entries = some t) :
    newSection version date (strip entries) <:+: t := by
  obtain ⟨k, pre, -, rfl⟩ := updateChangelog_eq_insert parseVersion h
  exact ⟨content.take k ++ pre, content.drop k, by simp⟩

end Splice

/-! ### The header the section starts with -/

theorem Re.run_decimals {g : Option (List Char)}
    {k : Option (List Char) → Option Char → List Char → Option Res} :
    ∀ (ds : List Char) {prev : Option Char} {rest : List Char}, (∀ c ∈ ds, isDecimal c) →
      (Re.decimals ds.length).run g prev (ds ++ rest) k = k g (lastChar prev ds) rest
  | [], _, _, _ => rfl
  | d :: ds, prev, rest, h => by
    rw [List.length_cons, Re.decimals, Re.run_seq, List.cons_append, Re.run_cls,
      if_pos (h d (List.mem_cons_self _ _)),
      Re.run_decimals ds fun c hc => h c (List.mem_cons_of_mem _ hc), lastChar_cons]

/-- `[^\]]+` reads a version without `]` whole and stops at the `]` after it. -/
theorem takeWhile_version {version : List Char} (hbracket : ']' ∉ version) (t : List Char) :
    (version ++ ("] - ".toList ++ t)).takeWhile (· != ']') = version ∧
      (version ++ ("] - ".toList ++ t)).dropWhile (· != ']') = "] - ".toList ++ t := by
  have hnot : ∀ c ∈ version, (c != ']') = true := fun c hc => by
    simpa using fun h : c = ']' => hbracket (h ▸ hc)
  rw [List.takeWhile_append_of_pos hnot, List.dropWhile_append_of_pos hnot]
  exact ⟨List.append_nil version, rfl⟩

/-- **The section's header reads back as a version header.**  For a non-empty
version with no `]` and a date of the form `YYYY-MM-DD`, `version_pattern` matches
at the start of the section written, with the version as its group: the header
has the form the script's own scan reads. -/
theorem versionPattern_matchHere_newSection {version date entries : List Char}
    (prev : Option Char) (rest : List Char) (hv : version ≠ []) (hbracket : ']' ∉ version)
    (hdate : ∃ y m d, date = y ++ ['-'] ++ m ++ ['-'] ++ d ∧ y.length = 4 ∧ m.length = 2 ∧
      d.length = 2 ∧ ∀ c ∈ y ++ m ++ d, isDecimal c) :
    versionPattern.matchHere prev (newSection version date entries ++ rest) =
      some (some version, "\n\n".toList ++ entries ++ "\n\n".toList ++ rest) := by
  obtain ⟨y, m, d, rfl, hy, hm, hd, hdigits⟩ := hdate
  simp only [List.mem_append, or_imp, forall_and] at hdigits
  simp only [Re.matchHere, versionPattern, newSection, List.append_assoc, Re.run_seq,
    Re.run_lit_append, Re.run_group, Re.run_rep]
  refine repRun_greedy_of_some
    (by rw [(takeWhile_version hbracket _).1]; exact List.length_pos.mpr hv) ?_
  rw [(takeWhile_version hbracket _).1, (takeWhile_version hbracket _).2]
  simp only [List.length_append, Nat.add_sub_cancel, List.take_left]
  rw [Re.run_lit_append, ← hy, Re.run_decimals y hdigits.1.1, Re.run_lit_append, ← hm,
    Re.run_decimals m hdigits.1.2, Re.run_lit_append, hm, ← hd, Re.run_decimals d hdigits.2]

theorem versionPattern_matchHere_newSection_release :
    versionPattern.matchHere none (newSection "2.0.0".toList "2024-02-02".toList "- y".toList ++ []) =
      some (some "2.0.0".toList, "\n\n".toList ++ "- y".toList ++ "\n\n".toList ++ []) :=
  versionPattern_matchHere_newSection none [] (by decide) (by decide)
    ⟨"2024".toList, "02".toList, "02".toList, by decide, rfl, rfl, rfl, by decide⟩

/-! ### The order of the headers -/

/-- The versions of the header matches at or after the Unreleased boundary whose
version parses, in the order of the text. -/
def headerVersions {V : Type} [LinearOrder V] (parseVersion : List Char → Option V)
    (text : List Char) : List V :=
  ((versionPattern.finditer text).filter fun m => searchStart text ≤ m.start).filterMap
    (headerVersion parseVersion)

/-- Inserting `0.9.0` below the Unreleased heading of a changelog that lists only
`1.0.0` puts it above `1.0.0`: the versions past the boundary, newest first before,
are in ascending order after. -/
theorem updateChangelog_older_version_above :
    headerVersions releaseVersion "## [Unreleased]\n\n## [1.0.0] - 2024-01-01\n- x\n".toList = [[1]] ∧
    updateChangelog releaseVersion "## [Unreleased]\n\n## [1.0.0] - 2024-01-01\n- x\n".toList
        "0.9.0".toList "2024-02-02".toList "- y".toList =
      some "## [Unreleased]\n\n\n## [0.9.0] - 2024-02-02\n\n- y\n\n## [1.0.0] - 2024-01-01\n- x\n".toList ∧
    headerVersions releaseVersion
        "## [Unreleased]\n\n\n## [0.9.0] - 2024-02-02\n\n- y\n\n## [1.0.0] - 2024-01-01\n- x\n".toList =
      [[0, 9], [1]] ∧ ([0, 9] : List Nat) < [1] := by
  decide

end ReleaseScripts
