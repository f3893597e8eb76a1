/-
ReleaseScripts/Format.lean

`format_changelog_from_prs`: the entries of many PRs, attributed to their PR,
collected per category without repeats and rendered in the changelog's
category order.

Design.  Reading the JSON file is left out; the function takes the list of PR
records it holds.  The collection is three nested folds over the dict `Notes`
of `Parse.lean`: `collectPr` over the PRs, `collectCategory` over one PR's
parsed categories, `collectEntry` over one category's entries.  Each fold's
effect on one category's list is `appendNew` (`if x not in l: l.append(x)`),
so the whole collection is one `appendNew` over the concatenated
contributions (`foldl_collectPr_get`), which is the stable de-duplication of
`Text.lean`.

Main results: `formatChangelogFromPrs_eq` (the rendering of the collected
lists, each the stable de-duplication of what the PRs contribute),
`formatChangelogFromPrs_append_listed` (a PR listed again changes nothing) and
`formatChangelogFromPrs_cites_longer_number` (a cited number that merely begins
with the PR's number stops the attribution).
-/
import ReleaseScripts.Parse
import ReleaseScripts.Extract

namespace ReleaseScripts

/-! ### PR records and attribution -/

/-- A record of the JSON list: `number`, `url`, `author`, `author_url`, `body`. -/
structure PR where
  number : Int
  url : List Char
  author : List Char
  authorUrl : List Char
  body : List Char
  deriving DecidableEq, Repr

/-- `f"#{pr_number}"`. -/
def PR.ref (pr : PR) : List Char :=
  '#' :: (toString pr.number).toList

/-- The attribution: `f"{entry} [#{pr_number}]({pr_url}) [{author}]({author_url})"`
unless the entry already holds `#<number>` or the URL. -/
def PR.formatEntry (pr : PR) (entry : List Char) : List Char :=
  if ¬pr.ref <:+: entry ∧ ¬pr.url <:+: entry then
    entry ++ " [".toList ++ pr.ref ++ "](".toList ++ pr.url ++ ") [".toList ++ pr.author ++
      "](".toList ++ pr.authorUrl ++ ")".toList
  else entry

/-- Attribution is idempotent: an attributed entry holds `#<number>`, so it is left
as it is, and text that is attributed already gets no second attribution. -/
theorem PR.formatEntry_formatEntry (pr : PR) (e : List Char) :
    pr.formatEntry (pr.formatEntry e) = pr.formatEntry e := by
  unfold PR.formatEntry
  split
  · have href : pr.ref <:+: e ++ " [".toList ++ pr.ref ++ "](".toList ++ pr.url ++ ") [".toList ++
        pr.author ++ "](".toList ++ pr.authorUrl ++ ")".toList :=
      ⟨e ++ " [".toList, "](".toList ++ pr.url ++ ") [".toList ++ pr.author ++ "](".toList ++
        pr.authorUrl ++ ")".toList, by simp⟩
    rw [if_neg fun h => h.1 href]
  · rfl

/-! ### Collecting -/

/-- One entry: attribute it, and append it unless the category holds it already. -/
def collectEntry (pr : PR) (c : Category) (acc : Notes) (entry : List Char) : Notes :=
  let formatted := pr.formatEntry entry
  if formatted ∈ acc.get c then acc else acc.push c formatted

/-- One parsed category of a PR. -/
def collectCategory (pr : PR) (acc : Notes) (ce : Category × List (List Char)) : Notes :=
  ce.2.foldl (collectEntry pr ce.1) (acc.touch ce.1)

/-- One PR: skipped when it has no Release Notes section or opts out. -/
def collectPr (acc : Notes) (pr : PR) : Notes :=
  match extractReleaseNotesSection pr.body with
  | none => acc
  | some releaseNotes =>
    if isOptOut releaseNotes then acc
    else (parseReleaseNotes releaseNotes).entries.foldl (collectCategory pr) acc

/-- `category_order`. -/
def categoryOrder : List Category :=
  [.added, .changed, .deprecated, .removed, .fixed, .security]

/-- `changelog_lines`: for each category with entries, its heading, its bullets and
a blank line. -/
def changelogLines (all : Notes) : List (List Char) :=
  categoryOrder.flatMap fun c =>
    if c ∈ all.keys ∧ all.get c ≠ [] then
      ("### ".toList ++ c.name) :: (all.get c).map ("- ".toList ++ ·) ++ [[]]
    else []

/-- `format_changelog_from_prs`, on the PR records the JSON file holds. -/
def formatChangelogFromPrs (prs : List PR) : List Char :=
  strip (join (changelogLines (prs.foldl collectPr Notes.empty)))

/-- An entry citing `#123` in PR 12 gets no attribution: `#12` and the PR's URL
both occur in it as text, although it references another PR. -/
theorem formatChangelogFromPrs_cites_longer_number :
    formatChangelogFromPrs [⟨12, "https://github.com/o/r/pull/12".toList, "al".toList,
        "https://github.com/al".toList, "## Release Notes\n### Fixed\n- Fix crash from #123".toList⟩] =
      "### Fixed\n- Fix crash from #123".toList := by
  decide

/-! ### What the collection holds -/

/-- What one PR contributes under `c`, in order: its entries there, attributed;
nothing when it has no Release Notes section or opts out. -/
def contribution (c : Category) (pr : PR) : List (List Char) :=
  match extractReleaseNotesSection pr.body with
  | none => []
  | some releaseNotes =>
    if isOptOut releaseNotes then [] else ((parseReleaseNotes releaseNotes).get c).map pr.formatEntry

/-- The list collected under `c`: the stable de-duplication of the PRs' contributions. -/
def collected (prs : List PR) (c : Category) : List (List Char) :=
  dedupKeepFirst (prs.flatMap (contribution c))

/-- A category's heading and one bullet per entry. -/
def categoryBlock (c : Category) (xs : List (List Char)) : List (List Char) :=
  ("### ".toList ++ c.name) :: xs.map ("- ".toList ++ ·)

/-- The lines of the rendering of lists `L`: in `categoryOrder`, for each non-empty
list its block and a blank line. -/
def renderLines (L : Category → List (List Char)) : List (List Char) :=
  categoryOrder.flatMap fun c => if L c = [] then [] else categoryBlock c (L c) ++ [[]]

/-- The rendering of lists `L`, stripped. -/
def renderChangelog (L : Category → List (List Char)) : List Char :=
  strip (join (renderLines L))

theorem Notes.mem_keys_touch (d : Notes) (c : Category) : c ∈ (d.touch c).keys := by
  rw [Notes.keys_touch]
  split <;> simp_all

section Collect

variable (pr : PR)

theorem collectEntry_keys (c₀ : Category) (acc : Notes) (e : List Char) :
    (collectEntry pr c₀ acc e).keys = acc.keys := by
  simp only [collectEntry]
  split <;> simp

theorem collectEntry_get {c₀ : Category} {acc : Notes} (hc : c₀ ∈ acc.keys) (e : List Char)
    (c : Category) : (collectEntry pr c₀ acc e).get c =
      if c = c₀ then appendNew (acc.get c₀) [pr.formatEntry e] else acc.get c := by
  simp only [collectEntry]
  by_cases hm : pr.formatEntry e ∈ acc.get c₀
  · rw [if_pos hm]
    by_cases h : c = c₀ <;> simp [h, appendNew_singleton, hm]
  · rw [if_neg hm, Notes.get_push hc]
    by_cases h : c = c₀ <;> simp [h, appendNew_singleton, hm]

theorem foldl_collectEntry_get {c₀ : Category} (es : List (List Char)) :
    ∀ {acc : Notes}, c₀ ∈ acc.keys → ∀ c, (es.foldl (collectEntry pr c₀) acc).get c =
      if c = c₀ then appendNew (acc.get c₀) (es.map pr.formatEntry) else acc.get c := by
  induction es with
  | nil => intro acc _ c; split <;> simp_all
  | cons e es ih =>
    intro acc hc c
    have hc' : c₀ ∈ (collectEntry pr c₀ acc e).keys := by rwa [collectEntry_keys]
    rw [List.foldl_cons, ih hc', collectEntry_get pr hc, collectEntry_get pr hc, if_pos rfl,
      ← appendNew_append, List.map_cons, List.singleton_append]
    split <;> rfl

theorem collectCategory_get (acc : Notes) (c₀ : Category) (es : List (List Char)) (c : Category) :
    (collectCategory pr acc (c₀, es)).get c =
      if c = c₀ then appendNew (acc.get c₀) (es.map pr.formatEntry) else acc.get c := by
  rw [collectCategory, foldl_collectEntry_get pr es (Notes.mem_keys_touch acc c₀), Notes.get_touch,
    Notes.get_touch]

/-- One PR's categories, distinct, each appended to its own list. -/
theorem foldl_collectCategory_get :
    ∀ (ents : List (Category × List (List Char))), (ents.map Prod.fst).Nodup →
      ∀ (acc : Notes) (c : Category), (ents.foldl (collectCategory pr) acc).get c =
        appendNew (acc.get c) (((ents.lookup c).getD []).map pr.formatEntry)
  | [], _, acc, c => rfl
  | (c₀, es) :: ents, hnd, acc, c => by
    simp only [List.map_cons, List.nodup_cons] at hnd
    rw [List.foldl_cons, foldl_collectCategory_get ents hnd.2, collectCategory_get]
    by_cases h : c = c₀
    · subst h
      simp [Notes.lookup_of_not_mem hnd.1]
    · simp [h, List.lookup_cons, (beq_eq_false_iff_ne).mpr h]

/-- **One PR, one step**: every category's list gets the PR's contribution appended. -/
theorem collectPr_get (acc : Notes) (c : Category) :
    (collectPr acc pr).get c = appendNew (acc.get c) (contribution c pr) := by
  unfold collectPr contribution
  split
  · rfl
  · split
    · rfl
    · exact foldl_collectCategory_get pr _ (Notes.nodup _) acc c

end Collect

/-- The whole run over the PRs. -/
theorem foldl_collectPr_get (prs : List PR) :
    ∀ (acc : Notes) (c : Category),
      (prs.foldl collectPr acc).get c = appendNew (acc.get c) (prs.flatMap (contribution c)) := by
  induction prs with
  | nil => intro acc c; rfl
  | cons pr prs ih =>
    intro acc c
    rw [List.foldl_cons, ih, collectPr_get, List.flatMap_cons, appendNew_append]

theorem get_foldl_collectPr (prs : List PR) (c : Category) :
    (prs.foldl collectPr Notes.empty).get c = collected prs c := by
  rw [foldl_collectPr_get, Notes.get_empty, collected, ← dedupKeepFirst_nil,
    appendNew_dedupKeepFirst, List.nil_append]

theorem changelogLines_foldl_collectPr (prs : List PR) :
    changelogLines (prs.foldl collectPr Notes.empty) = renderLines (collected prs) := by
  refine List.flatMap_congr fun c _ => ?_
  have hkey : c ∈ (prs.foldl collectPr Notes.empty).keys ∧
      (prs.foldl collectPr Notes.empty).get c ≠ [] ↔ collected prs c ≠ [] := by
    rw [← get_foldl_collectPr]
    exact ⟨And.right, fun h => ⟨by_contra fun hn => h (Notes.get_of_not_mem hn), h⟩⟩
  by_cases h : collected prs c = []
  · rw [if_neg fun hk => hkey.mp hk h, if_pos h]
  · rw [if_pos (hkey.mpr h), if_neg h, get_foldl_collectPr, categoryBlock, List.cons_append]

/-- The output is the rendering of the collected lists: the rewrite the other
modules use. -/
theorem formatChangelogFromPrs_eq_renderChangelog (prs : List PR) :
    formatChangelogFromPrs prs = renderChangelog (collected prs) := by
  rw [formatChangelogFromPrs, changelogLines_foldl_collectPr, renderChangelog]

/-- **`format_changelog_from_prs` renders the stable de-duplication of the
contributions.**  For each category in `category_order` whose collected list is
non-empty, a heading, one bullet per entry and a blank line; each list is, in PR
order, the attributed entries of the PRs that have a section and do not opt out,
with every repeat after the first dropped. -/
theorem formatChangelogFromPrs_eq (prs : List PR) :
    formatChangelogFromPrs prs = renderChangelog (collected prs) :=
  formatChangelogFromPrs_eq_renderChangelog prs

/-- **A PR listed again changes nothing**: every entry it contributes is collected
already, so the changelog of the longer list is the changelog of the shorter. -/
theorem formatChangelogFromPrs_append_listed (prs more : List PR) (h : ∀ pr ∈ more, pr ∈ prs) :
    formatChangelogFromPrs (prs ++ more) = formatChangelogFromPrs prs := by
  have hcol : collected (prs ++ more) = collected prs := by
    funext c
    rw [collected, collected, List.flatMap_append, ← appendNew_dedupKeepFirst, appendNew_of_subset]
    intro x hx
    obtain ⟨pr, hpr, hx⟩ := List.mem_flatMap.mp hx
    exact mem_dedupKeepFirst.mpr (List.mem_flatMap.mpr ⟨pr, h pr hpr, hx⟩)
  rw [formatChangelogFromPrs_eq_renderChangelog, formatChangelogFromPrs_eq_renderChangelog, hcol]

theorem formatChangelogFromPrs_append_listed_twice :
    formatChangelogFromPrs ([⟨7, "u".toList, "al".toList, "v".toList, "## Release Notes\n### Fixed\n- x".toList⟩] ++
        [⟨7, "u".toList, "al".toList, "v".toList, "## Release Notes\n### Fixed\n- x".toList⟩]) =
      formatChangelogFromPrs [⟨7, "u".toList, "al".toList, "v".toList, "## Release Notes\n### Fixed\n- x".toList⟩] :=
  formatChangelogFromPrs_append_listed _ _ (by simp)

end ReleaseScripts
