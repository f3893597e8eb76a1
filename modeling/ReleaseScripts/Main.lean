/-
ReleaseScripts/Main.lean

`main()` of `release-notes.py`: the command line in; what is printed on each
stream and the exit status out.

Design.  `sys.argv` is a list of texts whose first entry is the script's name.
A run is an `Outcome`, and `print` adds a newline (`printLn`).  `loadPrs` stands
for opening the PR file, `json.load` and reading each record's five fields: it
gives the records, or the text of the exception raised on the way.  The records
hold text: `json.load` also reads an escape of a lone surrogate such as `\ud800`
into a string, which no `List Char` holds and which `print` cannot write, so a
PR file with such a string is outside this model.  `validate` prints
`json.dumps` of the dict `validationResult`, and `format` prints the changelog or
a fixed sentence.

Main results: `main_validate` (the verdict is printed as one line of printable
ASCII that reads back as the dict built from `validate_release_notes`' result,
and the exit status is 0 exactly when that result is valid) and `main_format`
(for a PR file read into records of text, the fixed sentence is printed exactly
when no PR contributes an entry, and the changelog otherwise).
-/
import ReleaseScripts.Json
import ReleaseScripts.Validate

namespace ReleaseScripts

/-- What a run leaves: the text printed on standard output and on standard
error, and the exit status. -/
structure Outcome where
  stdout : List Char
  stderr : List Char
  status : Nat
  deriving DecidableEq, Repr

/-- `print(s)`: the text and a newline. -/
def printLn (s : List Char) : List Char :=
  s ++ ['\n']

namespace ReleaseNotes

/-- The usage lines `main` prints on standard error when no command is given. -/
def usage : List Char :=
  printLn "Usage: release-notes.py <command> [args...]".toList ++ printLn "Commands:".toList ++
    printLn "  validate <pr_body>        - Validate release notes".toList ++
    printLn "  format <prs_json_file>    - Format changelog from multiple PRs".toList

/-- `categories` as `json.dumps` is given it: `None`, or the dict from category
names to their entries. -/
def categoriesJson : Option Notes → JValue
  | none => .null
  | some categories => .obj (categories.entries.map fun ce => (ce.1.name, .arr (ce.2.map .str)))

/-- `result`, the dict `validate` prints. -/
def validationResult (r : Bool × List Char × Option Notes) : JValue :=
  .obj [("valid".toList, .bool r.1), ("message".toList, .str r.2.1),
    ("categories".toList, categoriesJson r.2.2)]

/-- `main()` of `release-notes.py`.  `loadPrs path` is the records the PR file
holds, or the text of the exception raised reading them. -/
def main (loadPrs : List Char → Except (List Char) (List PR)) (argv : List (List Char)) :
    Outcome :=
  match argv with
  | _ :: command :: args =>
    if command = "validate".toList then
      match args with
      | [] => ⟨[], printLn "Error: PR body required".toList, 1⟩
      | prBody :: _ =>
        let r := validateReleaseNotes prBody
        ⟨printLn (dumps (validationResult r)), [], if r.1 then 0 else 1⟩
    else if command = "format".toList then
      match args with
      | [] => ⟨[], printLn "Error: format requires prs_json_file".toList, 1⟩
      | prsJsonPath :: _ =>
        match loadPrs prsJsonPath with
        | .error e => ⟨[], printLn ("Error: ".toList ++ e), 1⟩
        | .ok prs =>
          let changelog := formatChangelogFromPrs prs
          ⟨printLn (if changelog ≠ [] then changelog
            else "No significant changes documented.".toList), [], 0⟩
    else ⟨[], printLn ("Error: Unknown command \x27".toList ++ command ++ "\x27".toList), 1⟩
  | _ => ⟨[], usage, 1⟩

/-! ### `validate` -/

example : main (fun _ => .error []) ["release-notes.py".toList, "validate".toList,
    "## Release Notes\n### Fixed\n- Fix \"x\" é 😀\n- tab\there".toList] =
    ⟨("\x7b\"valid\": true, \"message\": \"Release notes are valid\", \"categories\": " ++
      "\x7b\"Fixed\": [\"Fix \\\"x\\\" \\u00e9 \\ud83d\\ude00\", \"tab\\there\"]\x7d\x7d\n").toList, [], 0⟩ := by
  decide

/-! ### `format` -/

theorem renderLines_eq_nil_iff (L : Category → List (List Char)) :
    renderLines L = [] ↔ ∀ c, L c = [] := by
  simp only [renderLines, List.flatMap_eq_nil_iff]
  refine ⟨fun h c => ?_, fun h c _ => by simp [h c]⟩
  have := h c (mem_categoryOrder c)
  split_ifs at this with hc
  · exact hc
  · simp [categoryBlock] at this

theorem head_flatMap_categoryBlock (L : Category → List (List Char)) :
    ∀ cs : List Category, ∀ l ∈ (cs.flatMap fun c =>
      if L c = [] then [] else categoryBlock c (L c) ++ [[]]).head?, ∃ t, l = '#' :: t
  | [] => by simp
  | c :: cs => by
    rw [List.flatMap_cons]
    split_ifs
    · exact head_flatMap_categoryBlock L cs
    · simp [categoryBlock]

/-- A rendering with a line starts with the `#` of its first heading. -/
theorem renderChangelog_eq_cons {L : Category → List (List Char)} (h : renderLines L ≠ []) :
    ∃ t, renderChangelog L = '#' :: t := by
  obtain ⟨l, ls, hr⟩ := List.exists_cons_of_ne_nil h
  obtain ⟨t, rfl⟩ := head_flatMap_categoryBlock L categoryOrder l (by rw [← renderLines, hr]; rfl)
  rw [renderChangelog, hr, join_cons, List.cons_append]
  exact strip_cons_of_not_isSpace (show isSpace '#' = false from rfl) _

/-- A rendering is empty exactly when every list is. -/
theorem renderChangelog_eq_nil_iff (L : Category → List (List Char)) :
    renderChangelog L = [] ↔ ∀ c, L c = [] := by
  rw [← renderLines_eq_nil_iff]
  refine ⟨fun h => by_contra fun hne => ?_, fun h => by rw [renderChangelog, h]; rfl⟩
  obtain ⟨t, ht⟩ := renderChangelog_eq_cons hne
  exact List.cons_ne_nil _ _ (ht ▸ h)

theorem contribution_eq_nil_iff (c : Category) (pr : PR) :
    contribution c pr = [] ↔ ∀ releaseNotes, extractReleaseNotesSection pr.body = some releaseNotes →
      isOptOut releaseNotes = false → (parseReleaseNotes releaseNotes).get c = [] := by
  unfold contribution
  cases extractReleaseNotesSection pr.body with
  | none => simp
  | some releaseNotes => cases isOptOut releaseNotes <;> simp

theorem collected_eq_nil_iff (prs : List PR) (c : Category) :
    collected prs c = [] ↔ ∀ pr ∈ prs, contribution c pr = [] := by
  rw [collected, ← List.flatMap_eq_nil_iff, List.eq_nil_iff_forall_not_mem,
    List.eq_nil_iff_forall_not_mem]
  simp only [mem_dedupKeepFirst]

/-- The changelog is empty exactly when no PR contributes an entry. -/
theorem formatChangelogFromPrs_eq_nil_iff (prs : List PR) :
    formatChangelogFromPrs prs = [] ↔ ∀ pr ∈ prs, ∀ releaseNotes,
      extractReleaseNotesSection pr.body = some releaseNotes → isOptOut releaseNotes = false →
        ∀ c, (parseReleaseNotes releaseNotes).get c = [] := by
  simp only [formatChangelogFromPrs_eq_renderChangelog, renderChangelog_eq_nil_iff,
    collected_eq_nil_iff, contribution_eq_nil_iff]
  exact ⟨fun h pr hpr rn hx ho c => h c pr hpr rn hx ho, fun h c pr hpr rn hx ho => h pr hpr rn hx ho c⟩

/-- A non-empty changelog starts with the `#` of its first heading, so it is never
printed as the fixed sentence. -/
theorem printLn_formatChangelogFromPrs_ne {prs : List PR} (h : formatChangelogFromPrs prs ≠ []) :
    printLn (formatChangelogFromPrs prs) ≠ printLn "No significant changes documented.".toList := by
  rw [formatChangelogFromPrs_eq_renderChangelog] at h ⊢
  obtain ⟨t, ht⟩ := renderChangelog_eq_cons fun hr => h (by rw [renderChangelog, hr]; rfl)
  rw [printLn, printLn, ht]
  exact fun he => absurd (List.cons.inj he).1 (by decide)

/-- **`format` prints the fixed sentence exactly when no PR contributes an
entry**, that is when every PR lacks the Release Notes section, opts out, or
has no entry under a valid heading; otherwise it prints the changelog.  The run
succeeds either way once the PR file is read into records of text.  (A string
that `json.load` reads from the escape of a lone surrogate is not text: `print`
fails on it when it reaches the changelog, and the run exits 1.) -/
theorem main_format {loadPrs : List Char → Except (List Char) (List PR)} {prsJsonPath : List Char}
    {prs : List PR} (h : loadPrs prsJsonPath = .ok prs) (prog : List Char)
    (extra : List (List Char)) :
    let out := main loadPrs (prog :: "format".toList :: prsJsonPath :: extra)
    out.status = 0 ∧ out.stderr = [] ∧
      (out.stdout = printLn "No significant changes documented.".toList ↔
        ∀ pr ∈ prs, ∀ releaseNotes, extractReleaseNotesSection pr.body = some releaseNotes →
          isOptOut releaseNotes = false → ∀ c, (parseReleaseNotes releaseNotes).get c = []) ∧
      (out.stdout ≠ printLn "No significant changes documented.".toList →
        out.stdout = printLn (formatChangelogFromPrs prs)) := by
  dsimp only [main]
  rw [if_neg (by decide), if_pos rfl, h]
  dsimp only
  by_cases hc : formatChangelogFromPrs prs = []
  · rw [if_neg (not_not.mpr hc)]
    exact ⟨rfl, rfl, iff_of_true rfl ((formatChangelogFromPrs_eq_nil_iff prs).mp hc),
      fun hne => absurd rfl hne⟩
  · rw [if_pos hc]
    exact ⟨rfl, rfl, iff_of_false (printLn_formatChangelogFromPrs_ne hc)
      (mt (formatChangelogFromPrs_eq_nil_iff prs).mpr hc), fun _ => rfl⟩

theorem main_format_opt_out :
    (fun _ => .ok [⟨7, "u".toList, "al".toList, "v".toList, "## Release Notes\nNONE".toList⟩] :
        List Char → Except (List Char) (List PR)) "prs.json".toList =
      .ok [⟨7, "u".toList, "al".toList, "v".toList, "## Release Notes\nNONE".toList⟩] ∧
    let out := main (fun _ => .ok [⟨7, "u".toList, "al".toList, "v".toList,
      "## Release Notes\nNONE".toList⟩]) ["release-notes.py".toList, "format".toList, "prs.json".toList]
    out.status = 0 ∧ out.stderr = [] ∧
      (out.stdout = printLn "No significant changes documented.".toList ↔
        ∀ pr ∈ [(⟨7, "u".toList, "al".toList, "v".toList, "## Release Notes\nNONE".toList⟩ : PR)],
          ∀ releaseNotes, extractReleaseNotesSection pr.body = some releaseNotes →
            isOptOut releaseNotes = false → ∀ c, (parseReleaseNotes releaseNotes).get c = []) ∧
      (out.stdout ≠ printLn "No significant changes documented.".toList →
        out.stdout = printLn (formatChangelogFromPrs
          [⟨7, "u".toList, "al".toList, "v".toList, "## Release Notes\nNONE".toList⟩])) :=
  ⟨rfl, main_format rfl "release-notes.py".toList []⟩

end ReleaseNotes

end ReleaseScripts
