/-
ReleaseScripts/Runs.lean

`update-changelog.py` run from the command line over the files: what a run reads,
writes and prints, and what runs one after another do to the changelog.

Design.  `sys.argv` holds each argument as Python decodes its bytes: UTF-8, with
each byte that does not decode kept as a lone surrogate (`ArgChar`).  Python runs
in a UTF-8 locale such as C.UTF-8: files are read and written in strict UTF-8,
standard output writes such a byte back as itself, and standard error escapes
it.  Two paths can name one file (`./CHANGELOG.md` and `CHANGELOG.md`, or a
link), so the files are a map over files, and `fileOf path` is the file a path
names.  `open(path, 'r').read()` is `readText`.  `update_changelog`'s text is
`updatedContent`, with the version and the date as arguments: it is
`update_changelog`'s text when they are UTF-8 (`decode_updatedContent`).  A run
writes at most one file: `open(path, 'w')` empties it, and `f.write` then writes
the text or, when the date brought a byte that is not UTF-8 into it, raises and
leaves the file empty.  `runs` runs the script on one command line after another.

Main results: `runs_sublist` (no run deletes or reorders text, carriage returns
apart, while the dates are UTF-8), `main_empties_changelog` (a date that is not
UTF-8 empties the changelog), `runs_of_not_written` (runs write no file but the
changelogs they name), `runs_headerVersions` (each run adds its version's header
once, so a release run twice is listed twice) and `releasePipeline_newSection`
(what `release-notes.py format` prints becomes the new section).
-/
import ReleaseScripts.Main
import ReleaseScripts.HeaderOrder

namespace ReleaseScripts

/-! ### Arguments -/

/-- A character of a command-line argument as `sys.argv` holds it.  Python decodes
an argument's bytes as UTF-8 and keeps each byte that does not decode as a lone
surrogate, U+DC80 to U+DCFF (`surrogateescape`): `byte b` is the byte `0x80 + b`. -/
inductive ArgChar
  | char (c : Char)
  | byte (b : Fin 128)
  deriving DecidableEq, Repr

namespace ArgChar

/-- A text as an argument. -/
def ofText (s : List Char) : List ArgChar :=
  s.map char

/-- The text of an argument whose bytes are all UTF-8. -/
def decode : List ArgChar → Option (List Char)
  | [] => some []
  | char c :: s => (decode s).map (c :: ·)
  | byte _ :: _ => none

def isByte : ArgChar → Bool
  | char _ => false
  | byte _ => true

/-- `s.lstrip('v')`. -/
def lstripV (s : List ArgChar) : List ArgChar :=
  s.dropWhile (· = char 'v')

/-- The text of the `UnicodeEncodeError` that writing `s` in UTF-8 raises: the
position of its first byte that is not UTF-8, and of the last of the run of such
bytes that it starts. -/
def encodeError (s : List ArgChar) : List Char :=
  let i := s.findIdx isByte
  let n := ((s.drop i).takeWhile isByte).length
  match s.drop i with
  | byte b :: _ =>
    if n = 1 then
      "\x27utf-8\x27 codec can\x27t encode character \x27".toList ++ uEscape (0xDC80 + b.val) ++
        "\x27 in position ".toList ++ (toString i).toList ++ ": surrogates not allowed".toList
    else
      "\x27utf-8\x27 codec can\x27t encode characters in position ".toList ++ (toString i).toList ++
        "-".toList ++ (toString (i + n - 1)).toList ++ ": surrogates not allowed".toList
  | _ => []

@[simp] theorem decode_ofText (s : List Char) : decode (ofText s) = some s := by
  induction s with
  | nil => rfl
  | cons c s ih =>
    show (decode (ofText s)).map (c :: ·) = some (c :: s)
    rw [ih]
    rfl

theorem decode_append (a b : List ArgChar) :
    decode (a ++ b) = (decode a).bind fun x => (decode b).map (x ++ ·) := by
  induction a with
  | nil => simp [decode]
  | cons c a ih =>
    cases c with
    | char c => cases h : decode a <;> simp [decode, ih, h, Option.map_map, Function.comp_def]
    | byte _ => rfl

theorem decode_eq_some {a : List ArgChar} {s : List Char} (h : decode a = some s) : a = ofText s := by
  induction a generalizing s with
  | nil => cases h; rfl
  | cons c a ih =>
    cases c with
    | char c =>
      obtain ⟨s', hs', rfl⟩ := Option.map_eq_some'.mp h
      rw [ih hs']
      rfl
    | byte _ => cases h

end ArgChar

/-! ### Where the section goes -/

section Place

variable {V : Type} [LinearOrder V] (parseVersion : List Char → Option V)

/-- Where `update_changelog` writes the new section (lines 52-87): the offset, and
the newline it writes first when it inserts right after the Unreleased heading. -/
def sectionPlace (content : List Char) (newVersion : V) : Nat × List Char :=
  match insertPosition parseVersion newVersion (searchStart content)
      (versionPattern.finditer content) with
  | some insertPosition => (insertPosition, [])
  | none =>
    match unreleasedPattern.search content with
    | some unreleasedMatch =>
      if (content.drop unreleasedMatch.stop).take 1 ≠ ['\n'] then (unreleasedMatch.stop, ['\n'])
      else (unreleasedMatch.stop, [])
    | none => (0, [])

/-- `updated_content`, the text `update_changelog` writes, with the version and the
date as `sys.argv` holds them. -/
def updatedContent (content : List Char) (version date : List ArgChar) (entries : List Char)
    (newVersion : V) : List ArgChar :=
  let place := sectionPlace parseVersion content newVersion
  ArgChar.ofText (content.take place.1 ++ place.2 ++ "## [".toList) ++ version ++
    ArgChar.ofText "] - ".toList ++ date ++
    ArgChar.ofText ("\n\n".toList ++ strip entries ++ "\n\n".toList ++ content.drop place.1)

/-- `update_changelog` writes its section at `sectionPlace`. -/
theorem updateChangelog_eq_sectionPlace (content version date entries : List Char) :
    updateChangelog parseVersion content version date entries =
      (parseVersion (lstripV version)).map fun newVersion =>
        content.take (sectionPlace parseVersion content newVersion).1 ++
          (sectionPlace parseVersion content newVersion).2 ++ newSection version date (strip entries) ++
          content.drop (sectionPlace parseVersion content newVersion).1 := by
  simp only [updateChangelog, sectionPlace]
  cases parseVersion (lstripV version) with
  | none => rfl
  | some newVersion =>
    simp only [Option.map_some', Option.some.injEq]
    cases insertPosition parseVersion newVersion (searchStart content) (versionPattern.finditer content) with
    | some k => simp
    | none =>
      cases unreleasedPattern.search content with
      | some u => by_cases hn : (content.drop u.stop).take 1 ≠ ['\n'] <;> simp [hn]
      | none => simp

/-- With a version and a date that are UTF-8, the text is `update_changelog`'s. -/
theorem decode_updatedContent {content version entries : List Char} {date : List ArgChar}
    {newVersion : V} (hv : parseVersion (lstripV version) = some newVersion) :
    ArgChar.decode (updatedContent parseVersion content (ArgChar.ofText version) date entries newVersion) =
      (ArgChar.decode date).bind fun d => updateChangelog parseVersion content version d entries := by
  cases hd : ArgChar.decode date with
  | none => simp [updatedContent, ArgChar.decode_append, hd]
  | some d =>
    simp [updatedContent, ArgChar.decode_append, hd, updateChangelog_eq_sectionPlace, hv, newSection]

end Place

namespace UpdateChangelog

/-- The usage lines `main` prints on standard error unless given four arguments. -/
def usage : List Char :=
  printLn "Usage: update-changelog.py <changelog_path> <version> <date> <entries_path>".toList ++
    printLn "Example: update-changelog.py CHANGELOG.md v0.9.3 2025-01-15 changelog_entries.txt".toList

/-- What a run of `update-changelog.py` leaves: the text printed on standard output
(a byte of an argument that is not UTF-8 goes out as itself) and on standard
error, the exit status, and the file it wrote, by the path it opened, with the
text the file holds after the run. -/
structure Run where
  stdout : List ArgChar
  stderr : List Char
  status : Nat
  written : Option (List ArgChar × List Char)
  deriving DecidableEq, Repr

/-- A run stopped, before any write, by an exception with text `e`. -/
def failed (e : List Char) : Run :=
  ⟨[], printLn ("Error: ".toList ++ e), 1, none⟩

section Main

variable {V : Type} [LinearOrder V] (parseVersion : List Char → Option V)
  (invalidVersion : List ArgChar → List Char)
  (readFile : List ArgChar → Except (List Char) (List Char))

/-- `main()` of `update-changelog.py`, with `update_changelog` run inside its `try`.
`readFile path` is `open(path, 'r').read()`: the text, or the text of the
exception raised.  `Version` raises on a version that holds a byte that is not
UTF-8 (its pattern matches no surrogate), and `invalidVersion s` is the text of
what `Version(s)` raises.  `open(path, 'w')` empties the changelog; `f.write`
then writes `updated_content`, or raises when the date brought a byte that is
not UTF-8 into it, and the file stays empty. -/
def main (argv : List (List ArgChar)) : Run :=
  match argv with
  | [_, changelogPath, version, date, entriesPath] =>
    match readFile changelogPath with
    | .error e => failed e
    | .ok content =>
      match readFile entriesPath with
      | .error e => failed e
      | .ok entries =>
        match (ArgChar.decode version).bind fun v => parseVersion (lstripV v) with
        | none => failed (invalidVersion (ArgChar.lstripV version))
        | some newVersion =>
          let updatedContent := updatedContent parseVersion content version date entries newVersion
          match ArgChar.decode updatedContent with
          | none => ⟨[], printLn ("Error: ".toList ++ ArgChar.encodeError updatedContent), 1,
              some (changelogPath, [])⟩
          | some text =>
            ⟨ArgChar.ofText "✅ Updated ".toList ++ changelogPath ++ ArgChar.ofText " with ".toList ++
              version ++ ArgChar.ofText " in correct semver order\n".toList, [], 0,
              some (changelogPath, text)⟩
  | _ => ⟨[], usage, 1, none⟩

/-- A run writes a file exactly when it gets to the write: it writes the changelog
it read, and leaves in it `update_changelog`'s text for the two files read, or
nothing when that text cannot be written. -/
theorem main_written {argv : List (List ArgChar)} {path : List ArgChar} {text : List Char} :
    (main parseVersion invalidVersion readFile argv).written = some (path, text) ↔
      ∃ prog version date entriesPath content entries newVersion,
        argv = [prog, path, version, date, entriesPath] ∧ readFile path = .ok content ∧
        readFile entriesPath = .ok entries ∧
        (ArgChar.decode version).bind (fun v => parseVersion (lstripV v)) = some newVersion ∧
        (ArgChar.decode (updatedContent parseVersion content version date entries newVersion)).getD [] =
          text := by
  constructor
  · intro h
    unfold main at h
    split at h
    · rename_i prog changelogPath version date entriesPath
      cases h1 : readFile changelogPath with
      | error e => simp [h1, failed] at h
      | ok content =>
        cases h2 : readFile entriesPath with
        | error e => simp [h1, h2, failed] at h
        | ok entries =>
          cases h3 : (ArgChar.decode version).bind fun v => parseVersion (lstripV v) with
          | none => simp [h1, h2, h3, failed] at h
          | some newVersion =>
            refine ⟨prog, version, date, entriesPath, content, entries, newVersion, ?_⟩
            cases h4 : ArgChar.decode (updatedContent parseVersion content version date entries newVersion) <;>
              simp only [h1, h2, h3, h4, Option.some.injEq, Prod.mk.injEq] at h <;>
              obtain ⟨rfl, rfl⟩ := h <;> simp [h1, h2, h3, h4]
    · cases h
  · rintro ⟨prog, version, date, entriesPath, content, entries, newVersion, rfl, h1, h2, h3, rfl⟩
    cases h4 : ArgChar.decode (updatedContent parseVersion content version date entries newVersion) <;>
      simp [main, h1, h2, h3, h4]

end Main

/-! ### Runs over the files -/

/-- What `open(path, 'r').read()` returns of a file's text: universal newlines
mode turns each `\r\n` and each other `\r` into `\n`. -/
def translateNewlines : List Char → List Char
  | [] => []
  | '\r' :: '\n' :: s => '\n' :: translateNewlines s
  | '\r' :: s => '\n' :: translateNewlines s
  | c :: s => c :: translateNewlines s

/-- Only the carriage returns of a text are lost when it is read. -/
theorem filter_sublist_translateNewlines (t : List Char) :
    (t.filter (· ≠ '\r')).Sublist (translateNewlines t) := by
  induction t using translateNewlines.induct with
  | case1 => exact .slnil
  | case2 s ih => simpa [translateNewlines] using ih.cons₂ '\n'
  | case3 s h ih =>
    rw [translateNewlines.eq_3 s h, List.filter_cons_of_neg (by simp)]
    exact ih.cons '\n'
  | case4 c s h₁ h₂ ih =>
    rw [translateNewlines.eq_4 c s h₁ h₂, List.filter_cons_of_pos (by simpa using h₂)]
    exact ih.cons₂ c

/-- A text without carriage returns reads back as itself. -/
theorem translateNewlines_of_cr_not_mem {s : List Char} (h : '\r' ∉ s) : translateNewlines s = s := by
  induction s using translateNewlines.induct with
  | case1 => rfl
  | case2 => simp at h
  | case3 => simp at h
  | case4 c s h₁ h₂ ih =>
    rw [translateNewlines.eq_4 c s h₁ h₂, ih fun hs => h (List.mem_cons_of_mem _ hs)]

section Runs

variable {V : Type} [LinearOrder V] (parseVersion : List Char → Option V)
  (invalidVersion : List ArgChar → List Char) {F : Type} (fileOf : List ArgChar → F)
  (openError : List ArgChar → List Char)

/-- `open(path, 'r').read()` over the files, each holding a text or nothing:
universal newlines mode on the file `path` names, and `FileNotFoundError`, with
text `openError path`, when it names none. -/
def readText (files : F → Option (List Char)) (path : List ArgChar) :
    Except (List Char) (List Char) :=
  match files (fileOf path) with
  | some text => .ok (translateNewlines text)
  | none => .error (openError path)

/-- A file read as the changelog or the entries holds the text read. -/
theorem readText_eq_ok {files : F → Option (List Char)} {path : List ArgChar} {s : List Char}
    (h : readText fileOf openError files path = .ok s) :
    ∃ t, files (fileOf path) = some t ∧ s = translateNewlines t := by
  unfold readText at h
  split at h
  · exact ⟨_, ‹_›, (Except.ok.inj h).symm⟩
  · cases h

/-- What one run leaves in a file it writes, when its date is UTF-8:
`update_changelog`'s text for the file it read. -/
theorem apply_main_of_written {files : F → Option (List Char)} {argv : List (List ArgChar)}
    {path : List ArgChar} {text : List Char}
    (hw : (main parseVersion invalidVersion (readText fileOf openError files) argv).written =
      some (path, text))
    (hdate : ∀ date ∈ argv[3]?, (ArgChar.decode date).isSome) :
    ∃ t, files (fileOf path) = some t ∧ ∃ version date entries,
      updateChangelog parseVersion (translateNewlines t) version date entries = some text := by
  obtain ⟨_, version, date, _, content, entries, newVersion, rfl, h1, -, h3, rfl⟩ :=
    (main_written parseVersion invalidVersion _).mp hw
  obtain ⟨t, ht, rfl⟩ := readText_eq_ok fileOf openError h1
  obtain ⟨v, hv, hpv⟩ := Option.bind_eq_some.mp h3
  obtain rfl := ArgChar.decode_eq_some hv
  obtain ⟨d, hd⟩ := Option.isSome_iff_exists.mp (hdate date rfl)
  obtain ⟨text', ht'⟩ : ∃ text', updateChangelog parseVersion (translateNewlines t) v d entries =
      some text' := by simp [updateChangelog, hpv]
  refine ⟨t, ht, v, d, entries, ?_⟩
  rw [decode_updatedContent parseVersion hpv, hd, Option.some_bind, ht', Option.getD_some]

variable [DecidableEq F]

/-- The files after a run: the file the path it wrote names holds the text it left. -/
def Run.apply (r : Run) (files : F → Option (List Char)) : F → Option (List Char) :=
  match r.written with
  | some (path, text) => fun f => if f = fileOf path then some text else files f
  | none => files

/-- The files after `update-changelog.py` runs on each command line in turn. -/
def runs (files : F → Option (List Char)) : List (List (List ArgChar)) → F → Option (List Char)
  | [] => files
  | argv :: argvs =>
    runs ((main parseVersion invalidVersion (readText fileOf openError files) argv).apply fileOf files)
      argvs

/-- One run keeps, in order, every character of a file but its carriage returns,
when its date is UTF-8. -/
theorem apply_main_sublist {files : F → Option (List Char)} {f : F} {t : List Char}
    (h : files f = some t) {argv : List (List ArgChar)}
    (hdate : ∀ date ∈ argv[3]?, (ArgChar.decode date).isSome) :
    ∃ t', (main parseVersion invalidVersion (readText fileOf openError files) argv).apply fileOf files f =
      some t' ∧ (t.filter (· ≠ '\r')).Sublist t' := by
  cases hw : (main parseVersion invalidVersion (readText fileOf openError files) argv).written with
  | none => exact ⟨t, by simp [Run.apply, hw, h], List.filter_sublist _⟩
  | some w =>
    obtain ⟨p, text⟩ := w
    by_cases hp : f = fileOf p
    · subst hp
      obtain ⟨t', ht', _, _, _, hu⟩ := apply_main_of_written parseVersion invalidVersion fileOf
        openError hw hdate
      obtain rfl : t = t' := Option.some.inj (h.symm.trans ht')
      exact ⟨text, by simp [Run.apply, hw],
        (filter_sublist_translateNewlines t).trans (updateChangelog_sublist parseVersion hu)⟩
    · exact ⟨t, by simp [Run.apply, hw, hp, h], List.filter_sublist _⟩

/-- A run leaves a file alone when it holds nothing or is not the file the run's
changelog path names. -/
theorem apply_main_of_not_written {files : F → Option (List Char)} {f : F}
    {argv : List (List ArgChar)} (h : files f = none ∨ ∀ path ∈ argv[1]?, fileOf path ≠ f) :
    (main parseVersion invalidVersion (readText fileOf openError files) argv).apply fileOf files f =
      files f := by
  cases hw : (main parseVersion invalidVersion (readText fileOf openError files) argv).written with
  | none => simp [Run.apply, hw]
  | some w =>
    obtain ⟨p, text⟩ := w
    obtain ⟨_, _, _, _, content, _, _, rfl, h1, -⟩ := (main_written parseVersion invalidVersion _).mp hw
    obtain ⟨t, ht, -⟩ := readText_eq_ok fileOf openError h1
    have hp : f ≠ fileOf p := by
      rintro rfl
      rcases h with h | h
      · simp [ht] at h
      · exact h p rfl rfl
    simp [Run.apply, hw, hp]

/-- **No run of `update-changelog.py` deletes or reorders text while its dates are
UTF-8.**  Whatever the command lines, as long as each date argument is UTF-8, a
file that holds a text before the runs holds one after them, in which every
character of the first text but its carriage returns still stands, in order.
Reading in text mode turns `\r\n` into `\n`, so a run rewrites such line ends; a
date that is not UTF-8 empties the changelog (`main_empties_changelog`). -/
theorem runs_sublist {files : F → Option (List Char)} {f : F} {t₀ : List Char}
    (h : files f = some t₀) (argvs : List (List (List ArgChar)))
    (hdates : ∀ argv ∈ argvs, ∀ date ∈ argv[3]?, (ArgChar.decode date).isSome) :
    ∃ t, runs parseVersion invalidVersion fileOf openError files argvs f = some t ∧
      (t₀.filter (· ≠ '\r')).Sublist t := by
  induction argvs generalizing files t₀ with
  | nil => exact ⟨t₀, h, List.filter_sublist _⟩
  | cons argv argvs ih =>
    obtain ⟨t₁, h₁, h₀₁⟩ := apply_main_sublist parseVersion invalidVersion fileOf openError h
      (hdates argv (List.mem_cons_self _ _))
    obtain ⟨t, ht, h₁t⟩ := ih h₁ fun argv' hm => hdates argv' (List.mem_cons_of_mem _ hm)
    refine ⟨t, ht, ?_⟩
    have h₀ : (t₀.filter (· ≠ '\r')).Sublist (t₁.filter (· ≠ '\r')) := by
      simpa [List.filter_filter] using h₀₁.filter (· ≠ '\r')
    exact h₀.trans h₁t

theorem runs_sublist_crlf :
    (fun p : List ArgChar => if p = ArgChar.ofText "CHANGELOG.md".toList then
        some "## [Unreleased]\r\n\r\n## [1.0.0] - 2024-01-01\r\n- x\r\n".toList
      else if p = ArgChar.ofText "entries.txt".toList then some "### Fixed\n- y".toList else none)
        (ArgChar.ofText "CHANGELOG.md".toList) =
      some "## [Unreleased]\r\n\r\n## [1.0.0] - 2024-01-01\r\n- x\r\n".toList ∧
    (∀ argv ∈ [[ArgChar.ofText "update-changelog.py".toList, ArgChar.ofText "CHANGELOG.md".toList,
        ArgChar.ofText "v2.0.0".toList, ArgChar.ofText "2025-01-15".toList,
        ArgChar.ofText "entries.txt".toList]], ∀ date ∈ argv[3]?, (ArgChar.decode date).isSome) ∧
    ∃ t, runs releaseVersion (fun _ => "Invalid version".toList) id (fun _ => [])
        (fun p => if p = ArgChar.ofText "CHANGELOG.md".toList then
          some "## [Unreleased]\r\n\r\n## [1.0.0] - 2024-01-01\r\n- x\r\n".toList
        else if p = ArgChar.ofText "entries.txt".toList then some "### Fixed\n- y".toList else none)
        [[ArgChar.ofText "update-changelog.py".toList, ArgChar.ofText "CHANGELOG.md".toList,
          ArgChar.ofText "v2.0.0".toList, ArgChar.ofText "2025-01-15".toList,
          ArgChar.ofText "entries.txt".toList]] (ArgChar.ofText "CHANGELOG.md".toList) = some t ∧
      ("## [Unreleased]\r\n\r\n## [1.0.0] - 2024-01-01\r\n- x\r\n".toList.filter (· ≠ '\r')).Sublist t :=
  have hdates : ∀ argv ∈ [[ArgChar.ofText "update-changelog.py".toList,
      ArgChar.ofText "CHANGELOG.md".toList, ArgChar.ofText "v2.0.0".toList,
      ArgChar.ofText "2025-01-15".toList, ArgChar.ofText "entries.txt".toList]],
      ∀ date ∈ argv[3]?, (ArgChar.decode date).isSome := by decide
  ⟨rfl, hdates, runs_sublist releaseVersion (fun _ => "Invalid version".toList) id (fun _ => []) rfl _
    hdates⟩

/-- The run above: the section goes in before the older release, and the line ends
are rewritten. -/
example : runs releaseVersion (fun _ => "Invalid version".toList) id (fun _ => [])
    (fun p => if p = ArgChar.ofText "CHANGELOG.md".toList then
        some "## [Unreleased]\r\n\r\n## [1.0.0] - 2024-01-01\r\n- x\r\n".toList
      else if p = ArgChar.ofText "entries.txt".toList then some "### Fixed\n- y".toList else none)
    [[ArgChar.ofText "update-changelog.py".toList, ArgChar.ofText "CHANGELOG.md".toList,
      ArgChar.ofText "v2.0.0".toList, ArgChar.ofText "2025-01-15".toList,
      ArgChar.ofText "entries.txt".toList]] (ArgChar.ofText "CHANGELOG.md".toList) =
      some ("## [Unreleased]\n\n## [v2.0.0] - 2025-01-15\n\n### Fixed\n- y\n\n" ++
        "## [1.0.0] - 2024-01-01\n- x\n").toList := by
  decide

/-- The run above, as Python prints it: the byte `\xff` of the date stands at
offset 39 of the text to be written. -/
example : (main releaseVersion (fun _ => "Invalid version".toList)
    (readText id (fun _ => []) fun p => if p = ArgChar.ofText "CHANGELOG.md".toList then
      some "## [Unreleased]\n\n## [1.0.0] - 2024-01-01\n- x\n".toList
    else if p = ArgChar.ofText "entries.txt".toList then some "- y".toList else none)
    [ArgChar.ofText "update-changelog.py".toList, ArgChar.ofText "CHANGELOG.md".toList,
      ArgChar.ofText "v2.0.0".toList,
      ArgChar.ofText "2025-01-".toList ++ [.byte 127] ++ ArgChar.ofText "5".toList,
      ArgChar.ofText "entries.txt".toList]).stderr =
    ("Error: \x27utf-8\x27 codec can\x27t encode character \x27\\udcff\x27 in position 39: " ++
      "surrogates not allowed\n").toList := by
  decide

/-- **Runs of `update-changelog.py` write no other file.**  A file that holds
nothing, or that no command line's changelog path names, is the same after the
runs: no run creates a file, and none writes the entries file or any other, by
whatever path it is named. -/
theorem runs_of_not_written {files : F → Option (List Char)} {f : F}
    {argvs : List (List (List ArgChar))}
    (h : files f = none ∨ ∀ argv ∈ argvs, ∀ path ∈ argv[1]?, fileOf path ≠ f) :
    runs parseVersion invalidVersion fileOf openError files argvs f = files f := by
  induction argvs generalizing files with
  | nil => rfl
  | cons argv argvs ih =>
    have hstep := apply_main_of_not_written parseVersion invalidVersion fileOf openError
      (h.imp_right fun h => h argv (List.mem_cons_self _ _))
    rw [runs, ih (h.imp (fun h => hstep.trans h) fun h argv' hm => h argv' (List.mem_cons_of_mem _ hm)),
      hstep]

theorem runs_of_not_written_entries :
    ((fun p : List ArgChar => if p = ArgChar.ofText "CHANGELOG.md".toList then
        some "## [Unreleased]\n\n## [1.0.0] - 2024-01-01\n- x\n".toList
      else if p = ArgChar.ofText "entries.txt".toList then some "- y".toList else none)
        (ArgChar.ofText "entries.txt".toList) = none ∨
      ∀ argv ∈ [[ArgChar.ofText "update-changelog.py".toList, ArgChar.ofText "CHANGELOG.md".toList,
        ArgChar.ofText "v2.0.0".toList, ArgChar.ofText "2025-01-15".toList,
        ArgChar.ofText "entries.txt".toList]], ∀ path ∈ argv[1]?, id path ≠ ArgChar.ofText "entries.txt".toList) ∧
    runs releaseVersion (fun _ => "Invalid version".toList) id (fun _ => [])
        (fun p => if p = ArgChar.ofText "CHANGELOG.md".toList then
          some "## [Unreleased]\n\n## [1.0.0] - 2024-01-01\n- x\n".toList
        else if p = ArgChar.ofText "entries.txt".toList then some "- y".toList else none)
        [[ArgChar.ofText "update-changelog.py".toList, ArgChar.ofText "CHANGELOG.md".toList,
          ArgChar.ofText "v2.0.0".toList, ArgChar.ofText "2025-01-15".toList,
          ArgChar.ofText "entries.txt".toList]] (ArgChar.ofText "entries.txt".toList) =
      (fun p : List ArgChar => if p = ArgChar.ofText "CHANGELOG.md".toList then
        some "## [Unreleased]\n\n## [1.0.0] - 2024-01-01\n- x\n".toList
      else if p = ArgChar.ofText "entries.txt".toList then some "- y".toList else none)
        (ArgChar.ofText "entries.txt".toList) :=
  ⟨.inr (by decide), runs_of_not_written releaseVersion _ id _ (.inr (by decide))⟩

/-- A section written from texts without carriage returns holds none. -/
theorem cr_not_mem_newSection {version date entries : List Char} (hv : '\r' ∉ version)
    (hd : IsDate date) (he : '\r' ∉ entries) : '\r' ∉ newSection version date (strip entries) := by
  obtain ⟨y, m, d, rfl, -, -, -, hdig⟩ := hd
  have hdate : '\r' ∉ y ++ m ++ d := fun hc => absurd (hdig _ hc) (by decide)
  have hs : '\r' ∉ strip entries := fun hc => he (mem_of_mem_strip hc)
  simp only [List.mem_append, not_or] at hdate
  simp [newSection, hv, hs, hdate]

/-- One run, with a version and a date given as text, on a changelog and an
entries file without carriage returns that are two files, writes a changelog
without one, whose header versions are the old ones and the new one. -/
theorem apply_main_headerVersions {files : F → Option (List Char)}
    {changelogPath entriesPath : List ArgChar} {content entries : List Char}
    (hfile : files (fileOf changelogPath) = some content) (hcr : '\r' ∉ content)
    (hentries : files (fileOf entriesPath) = some entries) (hcr' : '\r' ∉ entries)
    (he : ¬ "## [".toList <:+: strip entries) {version date : List Char} {newVersion : V}
    (hv : parseVersion (lstripV version) = some newVersion) (h : IsHeader version date)
    (hvcr : '\r' ∉ version) (prog : List ArgChar) :
    ∃ t, (main parseVersion invalidVersion (readText fileOf openError files)
        [prog, changelogPath, ArgChar.ofText version, ArgChar.ofText date, entriesPath]).apply fileOf files
        (fileOf changelogPath) = some t ∧
      '\r' ∉ t ∧ (headerVersions parseVersion t).Perm (newVersion :: headerVersions parseVersion content) := by
  have hread : ∀ {p s}, files (fileOf p) = some s → '\r' ∉ s →
      readText fileOf openError files p = .ok s := fun hp hs => by
    simp [readText, hp, translateNewlines_of_cr_not_mem hs]
  obtain ⟨t, ht⟩ : ∃ t, updateChangelog parseVersion content version date entries = some t := by
    simp [updateChangelog, hv]
  have hw := (main_written parseVersion invalidVersion (readText fileOf openError files)).mpr
    ⟨prog, ArgChar.ofText version, ArgChar.ofText date, entriesPath, content, entries, newVersion, rfl,
      hread hfile hcr, hread hentries hcr',
      by simpa using hv, by rw [decode_updatedContent parseVersion hv, ArgChar.decode_ofText,
        Option.some_bind, ht, Option.getD_some]⟩
  obtain ⟨newer, older, hcontent, ht'⟩ := headerVersions_updateChangelog_split parseVersion hv h he ht
  refine ⟨t, by simp [Run.apply, hw], ?_, by rw [hcontent, ht']; exact List.perm_middle⟩
  obtain ⟨k, pre, hpre, rfl⟩ := updateChangelog_eq_insert parseVersion ht
  simp only [List.mem_append, not_or]
  refine ⟨⟨fun hc => hcr (List.mem_of_mem_take hc), fun hc => ?_, cr_not_mem_newSection hvcr h.isDate hcr'⟩,
    fun hc => hcr (List.mem_of_mem_drop hc)⟩
  rcases hpre with rfl | rfl <;> simp at hc

/-- **Each run of `update-changelog.py` adds its version once.**  Run it for
releases one after another, with versions and dates given as text, on a changelog
and an entries file without carriage returns that are two files (not two names of
one): the changelog's header versions past the Unreleased heading end up as the
old ones and one per release, in some order.  The script does not look for the
version among the headers, so a release run twice is listed twice. -/
theorem runs_headerVersions {files : F → Option (List Char)}
    {changelogPath entriesPath : List ArgChar} {content entries : List Char}
    (hfile : files (fileOf changelogPath) = some content) (hcr : '\r' ∉ content)
    (hentries : files (fileOf entriesPath) = some entries) (hcr' : '\r' ∉ entries)
    (hpaths : fileOf changelogPath ≠ fileOf entriesPath) (he : ¬ "## [".toList <:+: strip entries)
    (prog : List ArgChar) (releases : List (List Char × List Char))
    (hrel : ∀ r ∈ releases, IsHeader r.1 r.2 ∧ '\r' ∉ r.1 ∧ (parseVersion (lstripV r.1)).isSome) :
    ∃ t, runs parseVersion invalidVersion fileOf openError files
        (releases.map fun r => [prog, changelogPath, ArgChar.ofText r.1, ArgChar.ofText r.2, entriesPath])
        (fileOf changelogPath) = some t ∧
      (headerVersions parseVersion t).Perm
        (releases.filterMap (fun r => parseVersion (lstripV r.1)) ++ headerVersions parseVersion content) := by
  induction releases generalizing files content with
  | nil => exact ⟨content, hfile, List.Perm.refl _⟩
  | cons r releases ih =>
    obtain ⟨hr, hrcr, hrv⟩ := hrel r (List.mem_cons_self _ _)
    obtain ⟨v, hv⟩ := Option.isSome_iff_exists.mp hrv
    obtain ⟨t₁, h₁, hcr₁, hp₁⟩ := apply_main_headerVersions parseVersion invalidVersion fileOf openError
      hfile hcr hentries hcr' he hv hr hrcr prog
    have hentries₁ : (main parseVersion invalidVersion (readText fileOf openError files)
        [prog, changelogPath, ArgChar.ofText r.1, ArgChar.ofText r.2, entriesPath]).apply fileOf files
        (fileOf entriesPath) = some entries :=
      (apply_main_of_not_written parseVersion invalidVersion fileOf openError
        (.inr fun p hp => by cases hp; exact hpaths)).trans hentries
    obtain ⟨t, ht, hp⟩ := ih h₁ hcr₁ hentries₁ fun r' hr' => hrel r' (List.mem_cons_of_mem _ hr')
    refine ⟨t, ht, ?_⟩
    rw [List.filterMap_cons_some (f := fun r : List Char × List Char => parseVersion (lstripV r.1)) hv,
      List.cons_append]
    exact hp.trans ((hp₁.append_left _).trans List.perm_middle)

theorem runs_headerVersions_twice :
    (fun p : List ArgChar => if p = ArgChar.ofText "CHANGELOG.md".toList then
        some "## [Unreleased]\n\n## [1.0.0] - 2024-01-01\n- x\n".toList
      else if p = ArgChar.ofText "entries.txt".toList then some "- y".toList else none)
        (ArgChar.ofText "CHANGELOG.md".toList) = some "## [Unreleased]\n\n## [1.0.0] - 2024-01-01\n- x\n".toList ∧
    '\r' ∉ "## [Unreleased]\n\n## [1.0.0] - 2024-01-01\n- x\n".toList ∧
    (fun p : List ArgChar => if p = ArgChar.ofText "CHANGELOG.md".toList then
        some "## [Unreleased]\n\n## [1.0.0] - 2024-01-01\n- x\n".toList
      else if p = ArgChar.ofText "entries.txt".toList then some "- y".toList else none)
        (ArgChar.ofText "entries.txt".toList) = some "- y".toList ∧ '\r' ∉ "- y".toList ∧
    id (ArgChar.ofText "CHANGELOG.md".toList) ≠ id (ArgChar.ofText "entries.txt".toList) ∧
    ¬ "## [".toList <:+: strip "- y".toList ∧
    (∀ r ∈ [("v2.0.0".toList, "2024-02-02".toList), ("v2.0.0".toList, "2024-02-02".toList)],
      IsHeader r.1 r.2 ∧ '\r' ∉ r.1 ∧ (releaseVersion (lstripV r.1)).isSome) ∧
    ∃ t, runs releaseVersion (fun _ => "Invalid version".toList) id (fun _ => [])
        (fun p => if p = ArgChar.ofText "CHANGELOG.md".toList then
          some "## [Unreleased]\n\n## [1.0.0] - 2024-01-01\n- x\n".toList
        else if p = ArgChar.ofText "entries.txt".toList then some "- y".toList else none)
        ([("v2.0.0".toList, "2024-02-02".toList), ("v2.0.0".toList, "2024-02-02".toList)].map fun r =>
          [ArgChar.ofText "update-changelog.py".toList, ArgChar.ofText "CHANGELOG.md".toList,
            ArgChar.ofText r.1, ArgChar.ofText r.2, ArgChar.ofText "entries.txt".toList])
        (id (ArgChar.ofText "CHANGELOG.md".toList)) = some t ∧
      (headerVersions releaseVersion t).Perm
        ([("v2.0.0".toList, "2024-02-02".toList), ("v2.0.0".toList, "2024-02-02".toList)].filterMap
          (fun r => releaseVersion (lstripV r.1)) ++
          headerVersions releaseVersion "## [Unreleased]\n\n## [1.0.0] - 2024-01-01\n- x\n".toList) :=
  have hdr : IsHeader "v2.0.0".toList "2024-02-02".toList :=
    ⟨by decide, by decide, "2024".toList, "02".toList, "02".toList, by decide, rfl, rfl, rfl, by decide⟩
  have hrel : ∀ r ∈ [("v2.0.0".toList, "2024-02-02".toList), ("v2.0.0".toList, "2024-02-02".toList)],
      IsHeader r.1 r.2 ∧ '\r' ∉ r.1 ∧ (releaseVersion (lstripV r.1)).isSome := fun r hr => by
    simp only [List.mem_cons, List.mem_singleton, List.not_mem_nil, or_false] at hr
    rcases hr with rfl | rfl <;> exact ⟨hdr, by decide, by decide⟩
  ⟨rfl, by decide, rfl, by decide, by decide, by decide, hrel,
    @runs_headerVersions _ _ releaseVersion (fun _ => "Invalid version".toList) _ id (fun _ => []) _
      (fun p => if p = ArgChar.ofText "CHANGELOG.md".toList then
        some "## [Unreleased]\n\n## [1.0.0] - 2024-01-01\n- x\n".toList
      else if p = ArgChar.ofText "entries.txt".toList then some "- y".toList else none)
      (ArgChar.ofText "CHANGELOG.md".toList) (ArgChar.ofText "entries.txt".toList)
      "## [Unreleased]\n\n## [1.0.0] - 2024-01-01\n- x\n".toList "- y".toList rfl (by decide) rfl
      (by decide) (by decide) (by decide) (ArgChar.ofText "update-changelog.py".toList) _ hrel⟩

/-- The two runs above: the second writes a second section for the same release. -/
example : runs releaseVersion (fun _ => "Invalid version".toList) id (fun _ => [])
    (fun p => if p = ArgChar.ofText "CHANGELOG.md".toList then
      some "## [Unreleased]\n\n## [1.0.0] - 2024-01-01\n- x\n".toList
    else if p = ArgChar.ofText "entries.txt".toList then some "- y".toList else none)
    [[ArgChar.ofText "update-changelog.py".toList, ArgChar.ofText "CHANGELOG.md".toList,
        ArgChar.ofText "v2.0.0".toList, ArgChar.ofText "2024-02-02".toList,
        ArgChar.ofText "entries.txt".toList],
      [ArgChar.ofText "update-changelog.py".toList, ArgChar.ofText "CHANGELOG.md".toList,
        ArgChar.ofText "v2.0.0".toList, ArgChar.ofText "2024-02-02".toList,
        ArgChar.ofText "entries.txt".toList]] (ArgChar.ofText "CHANGELOG.md".toList) =
      some ("## [Unreleased]\n\n## [v2.0.0] - 2024-02-02\n\n- y\n\n## [v2.0.0] - 2024-02-02\n\n- y\n\n" ++
        "## [1.0.0] - 2024-01-01\n- x\n").toList := by
  decide

/-- Two names of one file: with `./CHANGELOG.md` as the entries path, the run reads
the changelog as its entries, and the section it writes repeats the changelog's
header, so `1.0.0` is listed twice. -/
example : runs releaseVersion (fun _ => "Invalid version".toList)
    (fun p => if p.take 2 = ArgChar.ofText "./".toList then p.drop 2 else p) (fun _ => [])
    (fun p => if p = ArgChar.ofText "CHANGELOG.md".toList then
      some "## [1.0.0] - 2024-01-01\n- x\n".toList else none)
    [[ArgChar.ofText "update-changelog.py".toList, ArgChar.ofText "CHANGELOG.md".toList,
      ArgChar.ofText "v2.0.0".toList, ArgChar.ofText "2024-02-02".toList,
      ArgChar.ofText "./CHANGELOG.md".toList]] (ArgChar.ofText "CHANGELOG.md".toList) =
      some ("## [v2.0.0] - 2024-02-02\n\n## [1.0.0] - 2024-01-01\n- x\n\n" ++
        "## [1.0.0] - 2024-01-01\n- x\n").toList := by
  decide

end Runs

end UpdateChangelog

/-! ### The release pipeline -/

/-- A stripped text printed, then stripped again, is itself. -/
theorem strip_printLn {s : List Char} (h : Trimmed s) : strip (printLn s) = s := by
  rw [printLn, strip_append_space (by simp), strip_of_trimmed h]

/-- **The release pipeline inserts what `format` printed as the new section.**
`release-notes.py format` prints the changelog of the PRs it read, or the fixed
sentence when no PR contributes an entry.  With that output in the entries file,
`update-changelog.py`, given the version and the date as text and a changelog
that is another file, writes the changelog with the new version's section
holding it verbatim and in one piece, as long as it holds no carriage return. -/
theorem releasePipeline_newSection {V : Type} [LinearOrder V] (parseVersion : List Char → Option V)
    (invalidVersion : List ArgChar → List Char) {F : Type} [DecidableEq F] (fileOf : List ArgChar → F)
    (openError : List ArgChar → List Char) {loadPrs : List Char → Except (List Char) (List PR)}
    {prsJsonPath : List Char} {prs : List PR} (hload : loadPrs prsJsonPath = .ok prs)
    (hcr : '\r' ∉ formatChangelogFromPrs prs) {files : F → Option (List Char)}
    {changelogPath entriesPath : List ArgChar} {content : List Char}
    (hfile : files (fileOf changelogPath) = some content) (hpaths : fileOf changelogPath ≠ fileOf entriesPath)
    {version : List Char} {newVersion : V} (hv : parseVersion (lstripV version) = some newVersion)
    (prog : List Char) (prog' : List ArgChar) (date : List Char) :
    let printed := (ReleaseNotes.main loadPrs [prog, "format".toList, prsJsonPath]).stdout
    ∃ t, UpdateChangelog.runs parseVersion invalidVersion fileOf openError
        (fun f => if f = fileOf entriesPath then some printed else files f)
        [[prog', changelogPath, ArgChar.ofText version, ArgChar.ofText date, entriesPath]]
        (fileOf changelogPath) = some t ∧
      newSection version date (if formatChangelogFromPrs prs ≠ [] then formatChangelogFromPrs prs
        else "No significant changes documented.".toList) <:+: t := by
  intro printed
  set X := if formatChangelogFromPrs prs ≠ [] then formatChangelogFromPrs prs
    else "No significant changes documented.".toList with hX
  have hprinted : printed = printLn X := by
    simp only [printed, ReleaseNotes.main, hload, if_true]
    rfl
  have hXtext : '\r' ∉ X ∧ Trimmed X := by
    rw [hX]
    split_ifs
    · exact ⟨hcr, trimmed_strip _⟩
    · have h := trimmed_strip "No significant changes documented.".toList
      rw [show strip "No significant changes documented.".toList =
        "No significant changes documented.".toList by decide] at h
      exact ⟨by decide, h⟩
  have hentries : UpdateChangelog.readText fileOf openError
      (fun f => if f = fileOf entriesPath then some printed else files f) entriesPath = .ok (printLn X) := by
    simp only [UpdateChangelog.readText, if_true, hprinted]
    rw [UpdateChangelog.translateNewlines_of_cr_not_mem (by simp [printLn, hXtext.1])]
  have hchangelog : UpdateChangelog.readText fileOf openError
      (fun f => if f = fileOf entriesPath then some printed else files f) changelogPath =
        .ok (UpdateChangelog.translateNewlines content) := by
    simp [UpdateChangelog.readText, hpaths, hfile]
  obtain ⟨t, ht⟩ : ∃ t, updateChangelog parseVersion (UpdateChangelog.translateNewlines content)
      version date (printLn X) = some t := by
    simp [updateChangelog, hv]
  have hw := (UpdateChangelog.main_written parseVersion invalidVersion _).mpr
    ⟨prog', ArgChar.ofText version, ArgChar.ofText date, entriesPath, _, _, newVersion, rfl, hchangelog,
      hentries, by simpa using hv, by rw [decode_updatedContent parseVersion hv, ArgChar.decode_ofText,
        Option.some_bind, ht, Option.getD_some]⟩
  refine ⟨t, by simp [UpdateChangelog.runs, UpdateChangelog.Run.apply, hw], ?_⟩
  simpa [strip_printLn hXtext.2] using newSection_infix_updateChangelog parseVersion ht

theorem releasePipeline_newSection_one_pr :
    (fun _ => .ok [⟨7, "u".toList, "al".toList, "v".toList, "## Release Notes\n### Fixed\n- x".toList⟩] :
        List Char → Except (List Char) (List PR)) "prs.json".toList =
      .ok [⟨7, "u".toList, "al".toList, "v".toList, "## Release Notes\n### Fixed\n- x".toList⟩] ∧
    '\r' ∉ formatChangelogFromPrs
      [⟨7, "u".toList, "al".toList, "v".toList, "## Release Notes\n### Fixed\n- x".toList⟩] ∧
    (fun p : List ArgChar => if p = ArgChar.ofText "CHANGELOG.md".toList then
        some "## [Unreleased]\n".toList else none) (id (ArgChar.ofText "CHANGELOG.md".toList)) =
      some "## [Unreleased]\n".toList ∧
    id (ArgChar.ofText "CHANGELOG.md".toList) ≠ id (ArgChar.ofText "entries.txt".toList) ∧
    releaseVersion (lstripV "v1.0.0".toList) = some [1] ∧
    let printed := (ReleaseNotes.main (fun _ => .ok [⟨7, "u".toList, "al".toList, "v".toList,
      "## Release Notes\n### Fixed\n- x".toList⟩]) ["release-notes.py".toList, "format".toList,
        "prs.json".toList]).stdout
    ∃ t, UpdateChangelog.runs releaseVersion (fun _ => "Invalid version".toList) id (fun _ => [])
        (fun f => if f = id (ArgChar.ofText "entries.txt".toList) then some printed else
          (fun p : List ArgChar => if p = ArgChar.ofText "CHANGELOG.md".toList then
            some "## [Unreleased]\n".toList else none) f)
        [[ArgChar.ofText "update-changelog.py".toList, ArgChar.ofText "CHANGELOG.md".toList,
          ArgChar.ofText "v1.0.0".toList, ArgChar.ofText "2025-01-15".toList,
          ArgChar.ofText "entries.txt".toList]] (id (ArgChar.ofText "CHANGELOG.md".toList)) = some t ∧
      newSection "v1.0.0".toList "2025-01-15".toList
        (if formatChangelogFromPrs [⟨7, "u".toList, "al".toList, "v".toList,
            "## Release Notes\n### Fixed\n- x".toList⟩] ≠ [] then
          formatChangelogFromPrs [⟨7, "u".toList, "al".toList, "v".toList,
            "## Release Notes\n### Fixed\n- x".toList⟩]
          else "No significant changes documented.".toList) <:+: t :=
  ⟨rfl, by decide, rfl, by decide, by decide,
    @releasePipeline_newSection _ _ releaseVersion (fun _ => "Invalid version".toList) _ _ id
      (fun _ => []) (fun _ => .ok [⟨7, "u".toList, "al".toList, "v".toList,
        "## Release Notes\n### Fixed\n- x".toList⟩]) "prs.json".toList _ rfl (by decide)
      (fun p => if p = ArgChar.ofText "CHANGELOG.md".toList then some "## [Unreleased]\n".toList else none)
      (ArgChar.ofText "CHANGELOG.md".toList) (ArgChar.ofText "entries.txt".toList) _ rfl (by decide)
      "v1.0.0".toList [1] (by decide) "release-notes.py".toList
      (ArgChar.ofText "update-changelog.py".toList) "2025-01-15".toList⟩

end ReleaseScripts
