/-
ReleaseScripts/Validate.lean

`validate_release_notes`: the check run on a PR body, with its verdict, its
messages and the categories it hands back, and what the changelog then takes
from a body that passes it.

Design.  The result is the source's triple `(is_valid, message,
parsed_categories)`, the message as text.  `validateReleaseNotes_categories`
says once when the triple carries categories; the link to the changelog goes
through the collection lemmas of `Format.lean`, never through its main theorems.

Main results: `formatChangelogFromPrs_of_validated` (a body that passes with
categories gives a non-empty changelog, the rendering of exactly its parsed
entries, attributed) and `formatEntry_mem_get_of_validated` (in the changelog of
any list of PRs, each entry of a body that passes reads back under its category).
-/
import ReleaseScripts.RoundTrip

namespace ReleaseScripts

/-! ### `validate_release_notes` -/

/-- `empty_categories`, by name: the categories whose list is empty, in the
dict's order. -/
def emptyCategories (categories : Notes) : List (List Char) :=
  (categories.entries.filter fun ce => ce.2 = []).map fun ce => ce.1.name

/-- `validate_release_notes`: `(is_valid, message, parsed_categories)`. -/
def validateReleaseNotes (prBody : List Char) : Bool × List Char × Option Notes :=
  match extractReleaseNotesSection prBody with
  | none => (false, "Release Notes section not found in PR description".toList, none)
  | some releaseNotes =>
    if isOptOut releaseNotes then (true, "Release notes opted out (NONE)".toList, none)
    else
      let categories := parseReleaseNotes releaseNotes
      if categories.entries = [] then
        (false, ("Release notes must contain at least one valid category (Added, Changed, " ++
          "Deprecated, Removed, Fixed, Security) with entries, or \x27NONE\x27 to opt out").toList,
          none)
      else if emptyCategories categories ≠ [] then
        (false, "Categories ".toList ++ ", ".toList.intercalate (emptyCategories categories) ++
          " have no entries".toList, none)
      else (true, "Release notes are valid".toList, some categories)

/-! ### The verdict -/

theorem mem_intersperse_of_mem {α : Type*} (sep : α) {x : α} :
    ∀ {l : List α}, x ∈ l → x ∈ l.intersperse sep
  | [_], h => h
  | _ :: _ :: _, h => by
    rw [List.intersperse_cons_cons]
    rcases List.mem_cons.mp h with rfl | h
    · exact List.mem_cons_self _ _
    · exact List.mem_cons_of_mem _ (List.mem_cons_of_mem _ (mem_intersperse_of_mem sep h))

theorem emptyCategories_eq_nil_iff (categories : Notes) :
    emptyCategories categories = [] ↔ ∀ ce ∈ categories.entries, ce.2 ≠ [] := by
  simp [emptyCategories, List.filter_eq_nil_iff]

/-- Categories come back exactly when the section is there, does not opt out, and
parses to a non-empty dict with an entry in every category. -/
theorem validateReleaseNotes_categories {prBody : List Char} {categories : Notes} :
    (validateReleaseNotes prBody).2.2 = some categories ↔
      ∃ releaseNotes, extractReleaseNotesSection prBody = some releaseNotes ∧
        isOptOut releaseNotes = false ∧ categories = parseReleaseNotes releaseNotes ∧
        categories.entries ≠ [] ∧ ∀ ce ∈ categories.entries, ce.2 ≠ [] := by
  simp only [← emptyCategories_eq_nil_iff]
  cases hx : extractReleaseNotesSection prBody with
  | none => simp [validateReleaseNotes, hx]
  | some releaseNotes =>
    cases hopt : isOptOut releaseNotes
    · simp only [validateReleaseNotes, hx, hopt, Bool.false_eq_true, if_false, Option.some.injEq,
        exists_eq_left', true_and]
      constructor
      · intro h
        split_ifs at h with hnil hempty
        obtain rfl := Option.some.inj h
        exact ⟨rfl, hnil, not_not.mp hempty⟩
      · rintro ⟨rfl, hnil, hempty⟩
        rw [if_neg hnil, if_neg (not_not.mpr hempty)]
    · simp [validateReleaseNotes, hx, hopt]

/-- A failing verdict that blames empty categories names every one of them. -/
theorem validateReleaseNotes_names_empty {prBody releaseNotes : List Char}
    (h : extractReleaseNotesSection prBody = some releaseNotes) (hopt : isOptOut releaseNotes = false)
    {c : Category} (hc : (c, []) ∈ (parseReleaseNotes releaseNotes).entries) :
    (validateReleaseNotes prBody).1 = false ∧ c.name <:+: (validateReleaseNotes prBody).2.1 := by
  have hname : c.name ∈ emptyCategories (parseReleaseNotes releaseNotes) :=
    List.mem_map.mpr ⟨(c, []), List.mem_filter.mpr ⟨hc, by simp⟩, rfl⟩
  simp only [validateReleaseNotes, h, hopt, Bool.false_eq_true, if_false,
    List.ne_nil_of_mem hc, List.ne_nil_of_mem hname, ne_eq, not_false_eq_true, if_true]
  exact ⟨trivial, (List.infix_of_mem_flatten (mem_intersperse_of_mem _ hname)).trans
    (List.infix_append _ _ _)⟩

/-! ### What the changelog takes from a validated body -/

/-- **A body that passes with categories makes a non-empty changelog of exactly its
entries.**  The changelog of its PR alone renders, under each category, the
body's parsed entries attributed to the PR (repeats dropped), so `main` never
prints "No significant changes documented." for it. -/
theorem formatChangelogFromPrs_of_validated {pr : PR} {categories : Notes}
    (h : (validateReleaseNotes pr.body).2.2 = some categories) :
    formatChangelogFromPrs [pr] =
        renderChangelog (fun c => dedupKeepFirst ((categories.get c).map pr.formatEntry)) ∧
      formatChangelogFromPrs [pr] ≠ [] := by
  obtain ⟨releaseNotes, hx, hopt, rfl, hne, hall⟩ := validateReleaseNotes_categories.mp h
  have hcollected : collected [pr] =
      fun c => dedupKeepFirst (((parseReleaseNotes releaseNotes).get c).map pr.formatEntry) := by
    funext c
    simp [collected, contribution, hx, hopt]
  have heq := formatChangelogFromPrs_eq_renderChangelog [pr]
  refine ⟨heq.trans (congrArg renderChangelog hcollected), ?_⟩
  obtain ⟨⟨c, es⟩, hce⟩ := List.exists_mem_of_ne_nil _ hne
  have hget : (parseReleaseNotes releaseNotes).get c = es := by
    rw [Notes.entries_eq, List.mem_map] at hce
    obtain ⟨c', -, hc'⟩ := hce
    cases hc'
    rfl
  have hc : collected [pr] c ≠ [] := by
    simp only [hcollected, hget]
    obtain ⟨e, he⟩ := List.exists_mem_of_ne_nil _ (hall _ hce)
    exact List.ne_nil_of_mem (mem_dedupKeepFirst.mpr (List.mem_map_of_mem _ he))
  rw [heq, renderChangelog]
  refine strip_ne_nil_of_mem (c := '#') (mem_join_of_mem (l := "### ".toList ++ c.name) ?_ (by simp)) rfl
  refine List.mem_flatMap.mpr ⟨c, mem_categoryOrder c, ?_⟩
  simp [hc, categoryBlock]

theorem formatChangelogFromPrs_of_validated_fixed :
    (validateReleaseNotes "## Release Notes\n### Fixed\n- x".toList).2.2 =
      some (parseReleaseNotes "### Fixed\n- x".toList) ∧
    formatChangelogFromPrs [⟨7, "u".toList, "al".toList, "v".toList, "## Release Notes\n### Fixed\n- x".toList⟩] =
      renderChangelog (fun c => dedupKeepFirst (((parseReleaseNotes "### Fixed\n- x".toList).get c).map
        (PR.formatEntry ⟨7, "u".toList, "al".toList, "v".toList, "## Release Notes\n### Fixed\n- x".toList⟩))) ∧
    formatChangelogFromPrs [⟨7, "u".toList, "al".toList, "v".toList, "## Release Notes\n### Fixed\n- x".toList⟩] ≠ [] :=
  ⟨by decide, @formatChangelogFromPrs_of_validated
    ⟨7, "u".toList, "al".toList, "v".toList, "## Release Notes\n### Fixed\n- x".toList⟩
    (parseReleaseNotes "### Fixed\n- x".toList) (by decide)⟩

/-! ### What the changelog reads back of a validated body -/

/-- **What the PR check accepts, the release notes carry.**  Take PRs whose URL
and author fields hold no newline and whose changelog holds no HTML comment.
Every entry of a listed PR whose body passes `validate_release_notes` with
categories is read back from the changelog under its category, attributed to the
PR, whatever the other PRs hold. -/
theorem formatEntry_mem_get_of_validated {prs : List PR} (hprs : ∀ pr ∈ prs, pr.OneLine)
    (hc : ¬HasComment (formatChangelogFromPrs prs)) {pr : PR} (hpr : pr ∈ prs)
    {categories : Notes} (hv : (validateReleaseNotes pr.body).2.2 = some categories)
    {c : Category} {e : List Char} (he : e ∈ categories.get c) :
    pr.formatEntry e ∈ (parseReleaseNotes (formatChangelogFromPrs prs)).get c := by
  obtain ⟨releaseNotes, hx, hopt, rfl, -, -⟩ := validateReleaseNotes_categories.mp hv
  rw [formatChangelogFromPrs_eq_renderChangelog] at hc ⊢
  rw [get_parseReleaseNotes_renderChangelog (fun _ _ hy => entryText_of_mem_collected hprs hy) hc]
  refine mem_dedupKeepFirst.mpr (List.mem_flatMap.mpr ⟨pr, hpr, ?_⟩)
  simpa [contribution, hx, hopt] using List.mem_map_of_mem pr.formatEntry he

theorem formatEntry_mem_get_of_validated_two_prs :
    PR.formatEntry ⟨8, "w".toList, "bo".toList, "z".toList, "## Release Notes\n### Added\n- y".toList⟩
        "y".toList ∈
      (parseReleaseNotes (formatChangelogFromPrs
        [⟨7, "u".toList, "al".toList, "v".toList, "## Release Notes\n### Fixed\n- x".toList⟩,
         ⟨8, "w".toList, "bo".toList, "z".toList, "## Release Notes\n### Added\n- y".toList⟩])).get .added :=
  @formatEntry_mem_get_of_validated
    [⟨7, "u".toList, "al".toList, "v".toList, "## Release Notes\n### Fixed\n- x".toList⟩,
     ⟨8, "w".toList, "bo".toList, "z".toList, "## Release Notes\n### Added\n- y".toList⟩]
    (by simp [PR.OneLine]) (not_hasComment_of_not_mem (by decide))
    ⟨8, "w".toList, "bo".toList, "z".toList, "## Release Notes\n### Added\n- y".toList⟩ (by simp)
    (parseReleaseNotes "### Added\n- y".toList) (by decide) .added "y".toList (by decide)

end ReleaseScripts
