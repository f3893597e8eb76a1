/-
ReleaseScripts/HeaderOrder.lean

The version headers `update_changelog` reads back from the text it writes: the
versions of the header matches at or past the Unreleased boundary, in text order.

Design.  Each branch of `update_changelog` is followed on its own.  Before the
first older version (`headerVersions_insert_before`): the boundary is unchanged
(`unreleasedPattern_search_insert`) and `finditer_insert` gives the header
matches.  Right after the Unreleased heading
(`headerVersions_insert_after_unreleased`): the header scan does not read past the
heading (`versionPattern_localTo_unreleased`), the newline written before the
section joins the heading's match, and the boundary moves past it.  At the top
(`headerVersions_newSection_append`): no Unreleased heading starts in the section,
and `findAll_newSection` gives the header matches.

Main results: `headerVersions_updateChangelog_eq_placeVersion` (whatever branch
it takes, `update_changelog` places the new version among the old ones right
before the first older one, as `List.orderedInsert` does in a list sorted newest
first, or first of all when none is older) and
`headerVersions_updateChangelog_sorted` (a changelog listed newest first stays
newest first when a listed version is older than the new one).
-/
import Mathlib.Data.List.Sort
import ReleaseScripts.Unreleased

namespace ReleaseScripts

/-! ### The header versions of the text written -/

section Order

variable {V : Type} [LinearOrder V] (parseVersion : List Char → Option V)

/-- **The Unreleased boundary of the text written** is the old one. -/
theorem searchStart_insert {content : List Char} {m₀ : ReMatch}
    (hm₀ : m₀ ∈ versionPattern.finditer content) (hk : searchStart content ≤ m₀.start)
    {version date entries : List Char} (h : IsHeader version date)
    (he : ¬ "## [".toList <:+: entries) :
    searchStart (content.take m₀.start ++ newSection version date entries ++ content.drop m₀.start) =
      searchStart content := by
  have hlen := length_take_start hm₀
  obtain ⟨v, d, z, -, hz⟩ := header_prefix_drop_start hm₀
  have hB : "##".toList <+: content.drop m₀.start :=
    ⟨" [".toList ++ v ++ "] - ".toList ++ d ++ z, by rw [hz]; simp [header]⟩
  unfold searchStart
  rw [unreleasedPattern_search_insert
    ⟨" [".toList ++ version ++ "] - ".toList ++ date ++ "\n\n".toList ++ entries ++ "\n\n".toList,
      by simp [newSection]⟩ hB
    (fun s₁ s₂ hs hne => unreleasedPattern_matchHere_newSection h he hs hne none _)
    (fun u hu => by
      rw [hlen, ← searchStart_of_search (List.take_append_drop _ _ ▸ hu)]
      exact hk),
    List.take_append_drop]

theorem filter_start_of_eq_append {L pre post : List ReMatch} {m₀ : ReMatch}
    (hL : L = pre ++ m₀ :: post) (hs : L.Pairwise fun a b => a.start < b.start) :
    L.filter (fun m => m.start < m₀.start) = pre ∧
      L.filter (fun m => m₀.start ≤ m.start) = m₀ :: post := by
  subst hL
  obtain ⟨-, hpost, hcross⟩ := List.pairwise_append.mp hs
  have hbefore : ∀ a ∈ pre, a.start < m₀.start := fun a ha => hcross a ha m₀ (List.mem_cons_self _ _)
  have hafter : ∀ b ∈ m₀ :: post, m₀.start ≤ b.start :=
    List.forall_mem_cons.mpr ⟨le_refl _, fun b hb => (List.rel_of_pairwise_cons hpost hb).le⟩
  rw [List.filter_append, List.filter_append,
    (List.filter_eq_self (l := pre)).mpr fun a ha => by simpa using hbefore a ha,
    (List.filter_eq_nil_iff (l := pre)).mpr fun a ha => by simpa using hbefore a ha,
    (List.filter_eq_nil_iff (l := m₀ :: post)).mpr fun b hb => by simpa using hafter b hb,
    (List.filter_eq_self (l := m₀ :: post)).mpr fun b hb => by simpa using hafter b hb]
  exact ⟨List.append_nil _, List.nil_append _⟩

/-- **Inserting before the first older version**: the versions read back are the
old ones with the new version right before the first older one, and the versions
before it are at least as new. -/
theorem headerVersions_insert_before {content : List Char} {newVersion : V} {m₀ : ReMatch}
    (hfind : (versionPattern.finditer content).find?
      (isOlderAt parseVersion newVersion (searchStart content)) = some m₀)
    {version date entries : List Char} (hv : parseVersion (lstripV version) = some newVersion)
    (h : IsHeader version date) (he : ¬ "## [".toList <:+: entries) :
    ∃ newer older, headerVersions parseVersion content = newer ++ older ∧
      headerVersions parseVersion (content.take m₀.start ++ newSection version date entries ++
        content.drop m₀.start) = newer ++ newVersion :: older ∧
      (∀ e ∈ newer, newVersion ≤ e) ∧ ∃ e₀ older', older = e₀ :: older' ∧ e₀ < newVersion := by
  obtain ⟨holder, pre, post, hL, hpre⟩ := List.find?_eq_some.mp hfind
  obtain ⟨hss, e₀, he₀, hlt₀⟩ := (isOlderAt_iff parseVersion).mp holder
  have hm₀ : m₀ ∈ versionPattern.finditer content :=
    hL ▸ List.mem_append_right _ (List.mem_cons_self _ _)
  obtain ⟨hP, hQ⟩ := filter_start_of_eq_append hL
    ((Re.findAll_pairwise versionPattern).imp fun h => h.2)
  have hafter : ∀ m ∈ m₀ :: post, m₀.start ≤ m.start := fun m hm => by
    exact of_decide_eq_true (List.mem_filter.mp (hQ ▸ hm : m ∈ _)).2
  refine ⟨(pre.filter fun m => searchStart content ≤ m.start).filterMap (headerVersion parseVersion),
    (m₀ :: post).filterMap (headerVersion parseVersion), ?_, ?_, ?_, e₀,
    post.filterMap (headerVersion parseVersion), by simp [he₀], hlt₀⟩
  · rw [headerVersions, hL, List.filter_append, List.filterMap_append]
    congr 2
    exact List.filter_eq_self.mpr fun m hm => by simpa using hss.trans (hafter m hm)
  · rw [headerVersions, searchStart_insert hm₀ hss h he, finditer_insert hm₀ h he, hP, hQ,
      List.filter_append, List.filterMap_append]
    congr 1
    rw [List.filter_eq_self.mpr, List.filterMap_cons_some (by simpa [headerVersion] using hv),
      List.filterMap_map]
    · rfl
    · rintro m (_ | ⟨_, hm⟩)
      · simpa using hss
      · obtain ⟨m', hm', rfl⟩ := List.mem_map.mp hm
        have := hss.trans (hafter m' hm')
        simp only [ReMatch.shift, decide_eq_true_eq]
        omega
  · intro e he
    obtain ⟨m, hm, hme⟩ := List.mem_filterMap.mp he
    obtain ⟨hmpre, hmss⟩ := List.mem_filter.mp hm
    exact (isOlderAt_eq_false_iff parseVersion).mp (by simpa using hpre m hmpre)
      (by simpa using hmss) e hme

/-- The scan finds an older version exactly when a version read back is older. -/
theorem find_isOlderAt_isSome_iff {content : List Char} {newVersion : V} :
    ((versionPattern.finditer content).find?
        (isOlderAt parseVersion newVersion (searchStart content))).isSome ↔
      ∃ e ∈ headerVersions parseVersion content, e < newVersion := by
  simp only [List.find?_isSome, isOlderAt_iff, headerVersions, List.mem_filterMap, List.mem_filter,
    decide_eq_true_eq]
  constructor
  · rintro ⟨m, hm, hss, e, he, hlt⟩
    exact ⟨e, ⟨m, ⟨hm, hss⟩, he⟩, hlt⟩
  · rintro ⟨e, ⟨m, ⟨hm, hss⟩, he⟩, hlt⟩
    exact ⟨m, hm, hss, e, he, hlt⟩

/-- **The header order is kept.**  When a version past the Unreleased heading is
older than the new one, `update_changelog` inserts the section before the first
older one. -/
theorem headerVersions_updateChangelog {content version date entries : List Char} {newVersion : V}
    (hv : parseVersion (lstripV version) = some newVersion) (h : IsHeader version date)
    (he : ¬ "## [".toList <:+: strip entries)
    (hold : ∃ e ∈ headerVersions parseVersion content, e < newVersion) :
    ∃ t newer older, updateChangelog parseVersion content version date entries = some t ∧
      headerVersions parseVersion content = newer ++ older ∧
      headerVersions parseVersion t = newer ++ newVersion :: older ∧
      (∀ e ∈ newer, newVersion ≤ e) ∧ ∃ e₀ older', older = e₀ :: older' ∧ e₀ < newVersion := by
  obtain ⟨m₀, hfind⟩ := Option.isSome_iff_exists.mp ((find_isOlderAt_isSome_iff parseVersion).mpr hold)
  obtain ⟨newer, older, hcontent, ht, hnewer, holder⟩ :=
    headerVersions_insert_before parseVersion hfind hv h he
  exact ⟨_, newer, older, by simp only [updateChangelog, hv, Option.map_some', insertPosition_eq_find,
    hfind], hcontent, ht, hnewer, holder⟩

/-- **Inserting right after the Unreleased heading**, the branch taken when no
version past it is older: the new version reads back first. -/
theorem headerVersions_insert_after_unreleased {content : List Char} {u : ReMatch}
    (hu : unreleasedPattern.search content = some u) {version date entries : List Char}
    {newVersion : V} (hv : parseVersion (lstripV version) = some newVersion)
    (h : IsHeader version date) (he : ¬ "## [".toList <:+: entries) :
    headerVersions parseVersion (content.take u.stop ++ ['\n'] ++ newSection version date entries ++
      content.drop u.stop) = newVersion :: headerVersions parseVersion content := by
  have hS : "##".toList <+: newSection version date entries :=
    ⟨" [".toList ++ version ++ "] - ".toList ++ date ++ "\n\n".toList ++ entries ++ "\n\n".toList,
      by simp [newSection]⟩
  have hss := unreleasedPattern_search_insert_after hu hS
  obtain ⟨p, ws, r, hws, rfl, rfl, -⟩ := unreleasedPattern_search_eq_some hu
  dsimp only at hss ⊢
  rw [List.take_left, List.drop_left] at hss
  rw [List.take_left, List.drop_left, List.append_assoc, List.append_assoc, List.singleton_append]
  set k := (p ++ unreleasedHeading ws).length
  set S := newSection version date entries
  set M := versionPattern.findAll 0 k (lastChar none (p ++ unreleasedHeading ws)) r
  have hM : ∀ m ∈ M, k ≤ m.start := fun m hm => (Re.findAll_start hm).1
  have hold : versionPattern.finditer (p ++ unreleasedHeading ws ++ r) =
      (versionPattern.finditer (p ++ unreleasedHeading ws ++ r)).filter (fun m => m.start < k) ++ M := by
    simpa only [Nat.zero_add] using Re.findAll_splice versionPattern _ 0 0 none (Nat.zero_le _)
      (versionPattern_localTo_unreleased none hws r r)
  have hnew : versionPattern.finditer (p ++ unreleasedHeading ws ++ '\n' :: (S ++ r)) =
      (versionPattern.finditer (p ++ unreleasedHeading ws ++ r)).filter (fun m => m.start < k) ++
        ⟨k + 1, k + 1 + (header version date).length, some version⟩ ::
          (M.map (ReMatch.shift 1)).map (ReMatch.shift S.length) := by
    unfold Re.finditer
    rw [Re.findAll_splice versionPattern _ 0 0 none (Nat.zero_le _)
      (versionPattern_localTo_unreleased none hws r ('\n' :: (S ++ r))),
      show '\n' :: (S ++ r) = ['\n'] ++ (S ++ r) from rfl,
      Re.findAll_of_none versionPattern ['\n'] _ _ _ fun x₁ x₂ hx hne => by
        obtain rfl : x₂ = ['\n'] := by
          rcases x₁ with _ | ⟨y, x₁⟩
          · exact hx.symm
          · simp at hx; simp [hx.2] at hne
        exact versionPattern_matchHere_eq_none_of_not_open
          (not_open_of_not_hashes (not_hashes_prefix_of_head (by decide) _)),
      findAll_newSection h he, Re.findAll_add versionPattern ['\n'].length 0 (0 + k),
      versionPattern_findAll_prev _ (lastChar none (p ++ unreleasedHeading ws)) 0 (0 + k) r]
    simp only [Nat.zero_add, List.length_singleton]
  have hbefore : ∀ n, k ≤ n → ((versionPattern.finditer (p ++ unreleasedHeading ws ++ r)).filter
      (fun m => m.start < k)).filter (fun m => n ≤ m.start) = [] := fun n hn =>
    List.filter_eq_nil_iff.mpr fun m hm => by
      have := of_decide_eq_true (List.mem_filter.mp hm).2
      simp only [decide_eq_true_eq, not_le]
      omega
  have hvold : headerVersions parseVersion (p ++ unreleasedHeading ws ++ r) =
      M.filterMap (headerVersion parseVersion) := by
    rw [headerVersions, searchStart_of_search hu, hold, List.filter_append, hbefore k le_rfl,
      List.nil_append, List.filter_eq_self.mpr fun m hm => by simpa using hM m hm]
  rw [hvold, headerVersions, searchStart, hss, hnew, List.filter_append, hbefore (k + 1) (Nat.le_succ k),
    List.nil_append, List.filter_eq_self.mpr, List.filterMap_cons_some (by simpa [headerVersion] using hv),
    List.filterMap_map, List.filterMap_map]
  · rfl
  · rintro m (_ | ⟨_, hm⟩)
    · simp
    · obtain ⟨m', hm', rfl⟩ := List.mem_map.mp hm
      obtain ⟨m'', hm'', rfl⟩ := List.mem_map.mp hm'
      have := hM m'' hm''
      simp only [ReMatch.shift, decide_eq_true_eq]
      omega

/-- **Inserting at the top**, the branch taken when the changelog has no
Unreleased heading and no older version: the new version reads back first. -/
theorem headerVersions_newSection_append {content : List Char}
    (hu : unreleasedPattern.search content = none) {version date entries : List Char}
    {newVersion : V} (hv : parseVersion (lstripV version) = some newVersion)
    (h : IsHeader version date) (he : ¬ "## [".toList <:+: entries) :
    headerVersions parseVersion (newSection version date entries ++ content) =
      newVersion :: headerVersions parseVersion content := by
  have hnone : unreleasedPattern.search (newSection version date entries ++ content) = none := by
    simp only [Re.search, Option.map_eq_none', Re.searchAt_eq_none_iff] at hu ⊢
    intro x rest hx
    rcases List.append_eq_append_iff.mp hx with ⟨a', rfl, hr⟩ | ⟨c', hS, rfl⟩
    · rw [unreleasedPattern_matchHere_prev _ (lastChar none a')]
      exact hu a' rest hr
    · rcases c' with _ | ⟨y, c'⟩
      · rw [unreleasedPattern_matchHere_prev _ none]
        exact hu [] content rfl
      · exact unreleasedPattern_matchHere_newSection h he hS (List.cons_ne_nil _ _) _ content
  rw [headerVersions, headerVersions, searchStart_of_search_none hu, searchStart_of_search_none hnone]
  unfold Re.finditer
  rw [findAll_newSection h he 0 none content]
  rw [List.filter_eq_self.mpr fun m _ => by simp, List.filter_eq_self.mpr fun m _ => by simp,
    List.filterMap_cons_some (by simpa [headerVersion] using hv), List.filterMap_map]
  rfl

/-- When no version past the Unreleased heading is older, whichever of the two
other branches `update_changelog` takes, the new version reads back first. -/
theorem headerVersions_updateChangelog_of_find_none {content version date entries t : List Char}
    {newVersion : V} (hv : parseVersion (lstripV version) = some newVersion)
    (h : IsHeader version date) (he : ¬ "## [".toList <:+: strip entries)
    (hfind : (versionPattern.finditer content).find?
      (isOlderAt parseVersion newVersion (searchStart content)) = none)
    (ht : updateChangelog parseVersion content version date entries = some t) :
    headerVersions parseVersion t = newVersion :: headerVersions parseVersion content := by
  simp only [updateChangelog, hv, Option.map_some', Option.some.injEq, insertPosition_eq_find,
    hfind] at ht
  cases hu : unreleasedPattern.search content with
  | some u =>
    obtain ⟨-, -, -, -, hnl⟩ := unreleasedPattern_search_split hu
    simp only [hu, ne_eq, hnl, not_false_eq_true, if_true] at ht
    exact ht ▸ headerVersions_insert_after_unreleased parseVersion hu hv h he
  | none =>
    simp only [hu] at ht
    exact ht ▸ headerVersions_newSection_append parseVersion hu hv h he

/-- **`update_changelog` adds the new version once and keeps the other versions
in their order.**  Whichever branch it takes, the versions read back from the text
it writes are the old ones with the new version inserted at one place. -/
theorem headerVersions_updateChangelog_split {content version date entries t : List Char}
    {newVersion : V} (hv : parseVersion (lstripV version) = some newVersion)
    (h : IsHeader version date) (he : ¬ "## [".toList <:+: strip entries)
    (ht : updateChangelog parseVersion content version date entries = some t) :
    ∃ newer older, headerVersions parseVersion content = newer ++ older ∧
      headerVersions parseVersion t = newer ++ newVersion :: older := by
  cases hfind : (versionPattern.finditer content).find?
      (isOlderAt parseVersion newVersion (searchStart content)) with
  | some m₀ =>
    simp only [updateChangelog, hv, Option.map_some', Option.some.injEq, insertPosition_eq_find,
      hfind] at ht
    obtain ⟨newer, older, hcontent, ht', -⟩ := headerVersions_insert_before parseVersion hfind hv h he
    exact ⟨newer, older, hcontent, ht ▸ ht'⟩
  | none => exact ⟨[], _, rfl, headerVersions_updateChangelog_of_find_none parseVersion hv h he hfind ht⟩

/-- **A changelog listed newest first stays newest first**, and gains exactly the
new version, when a version past the Unreleased heading is older than the new one. -/
theorem headerVersions_updateChangelog_sorted {content version date entries : List Char}
    {newVersion : V} (hv : parseVersion (lstripV version) = some newVersion)
    (h : IsHeader version date) (he : ¬ "## [".toList <:+: strip entries)
    (hsorted : (headerVersions parseVersion content).Pairwise (· ≥ ·))
    (hold : ∃ e ∈ headerVersions parseVersion content, e < newVersion) :
    ∃ t, updateChangelog parseVersion content version date entries = some t ∧
      (headerVersions parseVersion t).Pairwise (· ≥ ·) ∧
      (headerVersions parseVersion t).Perm (newVersion :: headerVersions parseVersion content) := by
  obtain ⟨t, newer, older, ht, hcontent, ht', hnewer, e₀, rest, rfl, hlt⟩ :=
    headerVersions_updateChangelog parseVersion hv h he hold
  refine ⟨t, ht, ?_, by rw [ht', hcontent]; exact List.perm_middle⟩
  rw [hcontent, List.pairwise_append, List.pairwise_cons] at hsorted
  obtain ⟨hnewer', ⟨he₀, holder⟩, hcross⟩ := hsorted
  rw [ht', List.pairwise_append, List.pairwise_cons, List.pairwise_cons]
  refine ⟨hnewer', ⟨fun e he => ?_, he₀, holder⟩, fun a ha b hb => ?_⟩
  · rcases List.mem_cons.mp he with rfl | he
    · exact hlt.le
    · exact (he₀ e he).trans hlt.le
  · rcases List.mem_cons.mp hb with rfl | hb
    · exact hnewer a ha
    · exact hcross a ha b hb

/-- The versions `v` is placed among: right before the first one older than `v`,
where `List.orderedInsert` puts it in a list sorted newest first, when one is
older; first of all when none is. -/
def placeVersion (v : V) (vs : List V) : List V :=
  if ∃ e ∈ vs, e < v then vs.orderedInsert (· > ·) v else v :: vs

theorem orderedInsert_append_of_le {v e₀ : V} {newer : List V} (rest : List V)
    (hnewer : ∀ e ∈ newer, v ≤ e) (hlt : e₀ < v) :
    (newer ++ e₀ :: rest).orderedInsert (· > ·) v = newer ++ v :: e₀ :: rest := by
  induction newer with
  | nil => exact List.orderedInsert_of_le _ _ hlt
  | cons e newer ih =>
    rw [List.cons_append, List.orderedInsert, if_neg (not_lt.mpr (hnewer e (List.mem_cons_self _ _))),
      ih fun e' he' => hnewer e' (List.mem_cons_of_mem _ he'), List.cons_append]

/-- **Where the new version goes.**  Whatever branch `update_changelog` takes, the
versions read back from the text it writes are the old ones with the new version
placed right before the first older one, as an insertion into a list sorted newest
first places it, or first of all when none is older: above versions at least as
new, however new they are. -/
theorem headerVersions_updateChangelog_eq_placeVersion {content version date entries t : List Char}
    {newVersion : V} (hv : parseVersion (lstripV version) = some newVersion)
    (h : IsHeader version date) (he : ¬ "## [".toList <:+: strip entries)
    (ht : updateChangelog parseVersion content version date entries = some t) :
    headerVersions parseVersion t = placeVersion newVersion (headerVersions parseVersion content) := by
  by_cases hold : ∃ e ∈ headerVersions parseVersion content, e < newVersion
  · obtain ⟨t', newer, older, ht', hcontent, hvt, hnewer, e₀, rest, rfl, hlt⟩ :=
      headerVersions_updateChangelog parseVersion hv h he hold
    obtain rfl : t = t' := Option.some.inj (ht.symm.trans ht')
    rw [placeVersion, if_pos hold, hvt, hcontent, orderedInsert_append_of_le rest hnewer hlt]
  · rw [placeVersion, if_neg hold]
    exact headerVersions_updateChangelog_of_find_none parseVersion hv h he
      (Option.not_isSome_iff_eq_none.mp (mt (find_isOlderAt_isSome_iff parseVersion).mp hold)) ht

/-- Inserting `0.9.0` below a lone `1.0.0`: nothing listed is older, so `0.9.0` is
placed first, above the newer `1.0.0`. -/
theorem headerVersions_updateChangelog_eq_placeVersion_older :
    releaseVersion (lstripV "0.9.0".toList) = some [0, 9] ∧
    IsHeader "0.9.0".toList "2024-02-02".toList ∧ ¬ "## [".toList <:+: strip "- y".toList ∧
    updateChangelog releaseVersion "## [Unreleased]\n\n## [1.0.0] - 2024-01-01\n- x\n".toList
        "0.9.0".toList "2024-02-02".toList "- y".toList =
      some "## [Unreleased]\n\n\n## [0.9.0] - 2024-02-02\n\n- y\n\n## [1.0.0] - 2024-01-01\n- x\n".toList ∧
    headerVersions releaseVersion
        "## [Unreleased]\n\n\n## [0.9.0] - 2024-02-02\n\n- y\n\n## [1.0.0] - 2024-01-01\n- x\n".toList =
      placeVersion [0, 9] (headerVersions releaseVersion
        "## [Unreleased]\n\n## [1.0.0] - 2024-01-01\n- x\n".toList) :=
  have hdr : IsHeader "0.9.0".toList "2024-02-02".toList :=
    ⟨by decide, by decide, "2024".toList, "02".toList, "02".toList, by decide, rfl, rfl, rfl, by decide⟩
  have ht : updateChangelog releaseVersion "## [Unreleased]\n\n## [1.0.0] - 2024-01-01\n- x\n".toList
      "0.9.0".toList "2024-02-02".toList "- y".toList =
      some "## [Unreleased]\n\n\n## [0.9.0] - 2024-02-02\n\n- y\n\n## [1.0.0] - 2024-01-01\n- x\n".toList := by
    decide
  ⟨by decide, hdr, by decide, ht,
    headerVersions_updateChangelog_eq_placeVersion releaseVersion (by decide) hdr (by decide) ht⟩

/-- The run above: the versions read back are `0.9.0` then `1.0.0`. -/
example : placeVersion [0, 9] (headerVersions releaseVersion
    "## [Unreleased]\n\n## [1.0.0] - 2024-01-01\n- x\n".toList) = [[0, 9], [1]] := by
  decide

theorem headerVersions_updateChangelog_sorted_release :
    releaseVersion (lstripV "v2.0.0".toList) = some [2] ∧
    IsHeader "v2.0.0".toList "2024-02-02".toList ∧ ¬ "## [".toList <:+: strip "- y".toList ∧
    (headerVersions releaseVersion "## [Unreleased]\n\n## [1.0.0] - 2024-01-01\n- x\n".toList).Pairwise
      (· ≥ ·) ∧
    (∃ e ∈ headerVersions releaseVersion "## [Unreleased]\n\n## [1.0.0] - 2024-01-01\n- x\n".toList,
      e < [2]) ∧
    ∃ t, updateChangelog releaseVersion "## [Unreleased]\n\n## [1.0.0] - 2024-01-01\n- x\n".toList
        "v2.0.0".toList "2024-02-02".toList "- y".toList = some t ∧
      (headerVersions releaseVersion t).Pairwise (· ≥ ·) ∧
      (headerVersions releaseVersion t).Perm
        ([2] :: headerVersions releaseVersion "## [Unreleased]\n\n## [1.0.0] - 2024-01-01\n- x\n".toList) :=
  have hdr : IsHeader "v2.0.0".toList "2024-02-02".toList :=
    ⟨by decide, by decide, "2024".toList, "02".toList, "02".toList, by decide, rfl, rfl, rfl, by decide⟩
  have hsorted : (headerVersions releaseVersion
      "## [Unreleased]\n\n## [1.0.0] - 2024-01-01\n- x\n".toList).Pairwise (· ≥ ·) := by decide
  have hold : ∃ e ∈ headerVersions releaseVersion
      "## [Unreleased]\n\n## [1.0.0] - 2024-01-01\n- x\n".toList, e < [2] := ⟨[1], by decide, by decide⟩
  ⟨by decide, hdr, by decide, hsorted, hold,
    headerVersions_updateChangelog_sorted releaseVersion (by decide) hdr (by decide) hsorted hold⟩

end Order

end ReleaseScripts
