/-
ReleaseScripts/Headers.lean

The version headers of a changelog, read declaratively, and the scan of
`version_pattern` over a changelog with a new section spliced in.

Design.  `version_pattern`, `## \[([^\]]+)\] - \d{4}-\d{2}-\d{2}`, matches at a
cursor exactly when the text there opens with `header version date`: a non-empty
version without `]`, then a date of decimal digits.  The pattern has no anchor, so
the character before the cursor plays no part.  The scan `finditer` is then
followed across a splice.  A match that starts before a header reads into it no
further than its version, so the matches before the splice point carry over
(`findAll_splice_before`, by recursion on the text before the point, as
`Re.findAll` recurses).  Inside the new section only its own header matches, its
entries holding no `## [` (`findAll_newSection`), and the matches after it are the
old ones, moved by the section's length (`Re.findAll_add`).

Main results: `versionPattern_matchHere_eq_some_iff` (what the header pattern
reads) and `finditer_insert` (with the section inserted at the start of a header
match, `finditer` reports the matches before it, the section's header, then the
old matches from it on, moved by the section's length).
-/
import ReleaseScripts.Changelog

namespace ReleaseScripts

/-! ### A version header, declaratively -/

/-- `\d{4}-\d{2}-\d{2}`: a date of decimal digits. -/
def IsDate (date : List Char) : Prop :=
  ∃ y m d, date = y ++ ['-'] ++ m ++ ['-'] ++ d ∧ y.length = 4 ∧ m.length = 2 ∧ d.length = 2 ∧
    ∀ c ∈ y ++ m ++ d, isDecimal c

/-- The text `## [version] - date`. -/
def header (version date : List Char) : List Char :=
  "## [".toList ++ version ++ "] - ".toList ++ date

/-- What `version_pattern` reads: a non-empty version without `]`, and a date. -/
structure IsHeader (version date : List Char) : Prop where
  ne_nil : version ≠ []
  bracket_not_mem : ']' ∉ version
  isDate : IsDate date

theorem Re.run_decimals_sound {g : Option (List Char)}
    {k : Option (List Char) → Option Char → List Char → Option Res} {res : Res} :
    ∀ (n : Nat) {prev : Option Char} {cs : List Char}, (Re.decimals n).run g prev cs k = some res →
      ∃ ds rest, cs = ds ++ rest ∧ ds.length = n ∧ (∀ c ∈ ds, isDecimal c) ∧
        k g (lastChar prev ds) rest = some res
  | 0, _, cs, h => ⟨[], cs, rfl, rfl, by simp, h⟩
  | n + 1, prev, [], h => by simp [Re.decimals, Re.run] at h
  | n + 1, prev, c :: cs, h => by
    rw [Re.decimals, Re.run_seq, Re.run_cls] at h
    split at h
    · rename_i hc
      obtain ⟨ds, rest, rfl, hlen, hds, hk⟩ := Re.run_decimals_sound n h
      exact ⟨c :: ds, rest, rfl, by simp [hlen], List.forall_mem_cons.mpr ⟨hc, hds⟩, by simpa using hk⟩
    · cases h

theorem versionPattern_matchHere_header {version date : List Char} (prev : Option Char)
    (rest : List Char) (h : IsHeader version date) :
    versionPattern.matchHere prev (header version date ++ rest) = some (some version, rest) := by
  obtain ⟨y, m, d, rfl, hy, hm, hd, hdigits⟩ := h.isDate
  simp only [List.mem_append, or_imp, forall_and] at hdigits
  simp only [Re.matchHere, versionPattern, header, List.append_assoc, Re.run_seq,
    Re.run_lit_append, Re.run_group, Re.run_rep]
  refine repRun_greedy_of_some
    (by rw [(takeWhile_version h.bracket_not_mem _).1]; exact List.length_pos.mpr h.ne_nil) ?_
  rw [(takeWhile_version h.bracket_not_mem _).1, (takeWhile_version h.bracket_not_mem _).2]
  simp only [List.length_append, Nat.add_sub_cancel, List.take_left]
  rw [Re.run_lit_append, ← hy, Re.run_decimals y hdigits.1.1, Re.run_lit_append, ← hm,
    Re.run_decimals m hdigits.1.2, Re.run_lit_append, hm, ← hd, Re.run_decimals d hdigits.2]


theorem take_sub_length_dropWhile {α : Type*} (p : α → Bool) : ∀ l : List α,
    l.take (l.length - (l.dropWhile p).length) = l.takeWhile p
  | [] => rfl
  | a :: l => by
    by_cases ha : p a
    · have hle : (l.dropWhile p).length ≤ l.length := (List.dropWhile_suffix p).length_le
      rw [List.dropWhile_cons_of_pos ha, List.takeWhile_cons_of_pos ha, List.length_cons,
        Nat.succ_sub hle, List.take_succ_cons, take_sub_length_dropWhile p l]
    · rw [List.dropWhile_cons_of_neg ha, List.takeWhile_cons_of_neg ha, Nat.sub_self, List.take_zero]

theorem versionPattern_matchHere_eq_some {prev : Option Char} {cs : List Char}
    {g : Option (List Char)} {rest : List Char}
    (h : versionPattern.matchHere prev cs = some (g, rest)) :
    ∃ version date, IsHeader version date ∧ g = some version ∧ cs = header version date ++ rest := by
  simp only [Re.matchHere, versionPattern, Re.run_seq] at h
  obtain ⟨cs₁, rfl, h₁⟩ := Re.run_lit_sound "## [".toList h
  rw [Re.run_group, Re.run_rep, repRun_greedy_eq] at h₁
  · split at h₁
    · rename_i hlen
      rw [take_sub_length_dropWhile] at h₁
      obtain ⟨c₂, hc₂, h₂⟩ := Re.run_lit_sound "] - ".toList h₁
      obtain ⟨y, c₃, rfl, hy, hydig, h₃⟩ := Re.run_decimals_sound 4 h₂
      obtain ⟨c₄, rfl, h₄⟩ := Re.run_lit_sound ['-'] h₃
      obtain ⟨m, c₅, rfl, hm, hmdig, h₅⟩ := Re.run_decimals_sound 2 h₄
      obtain ⟨c₆, rfl, h₆⟩ := Re.run_lit_sound ['-'] h₅
      obtain ⟨d, c₇, rfl, hd, hddig, h₇⟩ := Re.run_decimals_sound 2 h₆
      obtain ⟨rfl, rfl⟩ := Prod.mk.inj (Option.some.inj h₇)
      refine ⟨cs₁.takeWhile (· != ']'), y ++ ['-'] ++ m ++ ['-'] ++ d,
        ⟨List.ne_nil_of_length_pos hlen, fun hmem => by simpa using List.mem_takeWhile_imp hmem,
          y, m, d, rfl, hy, hm, hd, fun c hc => by
            rcases List.mem_append.mp hc with hc | hc
            · rcases List.mem_append.mp hc with hc | hc
              exacts [hydig c hc, hmdig c hc]
            · exact hddig c hc⟩,
        rfl, ?_⟩
      nth_rewrite 1 [← List.takeWhile_append_dropWhile (· != ']') cs₁]
      rw [hc₂]
      simp [header]
    · cases h₁
  · intro q d cs hd
    have hd' : (d == ']') = false := by simpa using hd
    simp only [Re.run_seq, Re.lit, Re.run_word, show "] - ".toList = ']' :: " - ".toList from rfl,
      wordRest, hd', Bool.false_eq_true, if_false, Option.none_bind]


theorem versionPattern_matchHere_eq_some_iff {prev : Option Char} {cs : List Char}
    {g : Option (List Char)} {rest : List Char} :
    versionPattern.matchHere prev cs = some (g, rest) ↔
      ∃ version date, IsHeader version date ∧ g = some version ∧ cs = header version date ++ rest :=
  ⟨versionPattern_matchHere_eq_some, fun ⟨_, _, h, hg, hcs⟩ => hg ▸ hcs ▸ versionPattern_matchHere_header prev rest h⟩

/-- The pattern has no anchor: the character before the cursor plays no part. -/
theorem versionPattern_matchHere_prev (prev prev' : Option Char) (cs : List Char) :
    versionPattern.matchHere prev cs = versionPattern.matchHere prev' cs := by
  cases h : versionPattern.matchHere prev' cs with
  | none =>
    cases h' : versionPattern.matchHere prev cs with
    | none => rfl
    | some r =>
      obtain ⟨v, d, hvd, -, rfl⟩ := versionPattern_matchHere_eq_some h'
      simp [versionPattern_matchHere_header prev' _ hvd] at h
  | some r => exact versionPattern_matchHere_eq_some_iff.mpr (versionPattern_matchHere_eq_some h)

/-- A match that ends before `w` does not read `w`. -/
theorem versionPattern_matchHere_append_left {prev prev' : Option Char} {u w w' r : List Char}
    {g : Option (List Char)} (h : versionPattern.matchHere prev (u ++ w) = some (g, r ++ w)) :
    versionPattern.matchHere prev' (u ++ w') = some (g, r ++ w') := by
  obtain ⟨v, d, hvd, rfl, huw⟩ := versionPattern_matchHere_eq_some h
  have hu : u = header v d ++ r := List.append_cancel_right (by simpa using huw)
  rw [hu, List.append_assoc]
  exact versionPattern_matchHere_header prev' _ hvd

theorem hash_not_mem_dateTail {d : List Char} (hd : IsDate d) : '#' ∉ "] - ".toList ++ d := by
  obtain ⟨y, m, dd, rfl, -, -, -, hdig⟩ := hd
  have hy : ∀ c ∈ y ++ m ++ dd, c ≠ '#' := fun c hc he =>
    absurd (he ▸ hdig c hc) (by decide)
  simp only [List.mem_append, List.mem_singleton] at hy ⊢
  rintro (h | ((((h | h) | h) | h) | h))
  · revert h; decide
  · exact hy _ (.inl (.inl h)) rfl
  · cases h
  · exact hy _ (.inl (.inr h)) rfl
  · cases h
  · exact hy _ (.inr h) rfl

/-- An attempt that fails before a header fails before any other header: it can
read into the header only through the version, and then it would match. -/
theorem versionPattern_matchHere_append_eq_none {prev prev' : Option Char} {u w w' : List Char}
    (hw : ∃ v d z, IsHeader v d ∧ w = header v d ++ z)
    (hw' : ∃ v d z, IsHeader v d ∧ w' = header v d ++ z)
    (h : versionPattern.matchHere prev (u ++ w) = none) :
    versionPattern.matchHere prev' (u ++ w') = none := by
  obtain ⟨v₀, d₀, z₀, h₀, rfl⟩ := hw
  obtain ⟨v₁, d₁, z₁, h₁, rfl⟩ := hw'
  have hno : ∀ v d z, IsHeader v d → u ++ (header v₀ d₀ ++ z₀) ≠ header v d ++ z :=
    fun v d z hvd he => by simp [he, versionPattern_matchHere_header prev z hvd] at h
  cases hsome : versionPattern.matchHere prev' (u ++ (header v₁ d₁ ++ z₁)) with
  | none => rfl
  | some r =>
    exfalso
    obtain ⟨v, d, hvd, -, heq⟩ := versionPattern_matchHere_eq_some hsome
    have hhead : ∀ x t, header v₁ d₁ ++ z₁ = x :: t → x = '#' := fun x t ht => by
      simpa [header] using (congrArg List.head? ht).symm
    rw [show header v d ++ r.2 = "## [".toList ++ (v ++ ("] - ".toList ++ d ++ r.2)) by
      simp [header]] at heq
    rcases List.append_eq_append_iff.mp heq with ⟨a', hu, hw'⟩ | ⟨c', rfl, hT⟩
    · -- the attempt starts inside `## [`
      rcases a' with _ | ⟨x, a''⟩
      · rw [List.append_nil] at hu
        subst hu
        exact hno ("## [".toList ++ v₀) d₀ z₀ ⟨by simp, by simpa using h₀.bracket_not_mem,
          h₀.isDate⟩ (by simp [header])
      · by_cases hu0 : u = []
        · subst hu0
          exact hno v₀ d₀ z₀ h₀ rfl
        have hx := hhead x _ hw'
        have hlen := congrArg List.length hu
        have hdrop : "## [".toList.drop u.length = x :: a'' := by rw [hu, List.drop_left]
        simp only [List.length_append, List.length_cons] at hlen
        have hpos := List.length_pos.mpr hu0
        obtain h1 | h1 | h1 : u.length = 1 ∨ u.length = 2 ∨ u.length = 3 := by
          simp at hlen; omega
        · rw [h1] at hdrop
          obtain ⟨rfl, rfl⟩ : x = '#' ∧ a'' = [' ', '['] := by simpa using hdrop.symm
          simp [header] at hw'
        all_goals rw [h1] at hdrop; simp at hdrop; simp [← hdrop.1] at hx
    · rcases List.append_eq_append_iff.mp hT with ⟨a', rfl, hX⟩ | ⟨c'', rfl, -⟩
      · rcases List.append_eq_append_iff.mp hX.symm with ⟨c₃, hdt, hW'⟩ | ⟨a₃, rfl, -⟩
        · rcases c₃ with _ | ⟨x, c₃⟩
          · rw [List.append_nil] at hdt
            subst hdt
            exact hno v d (header v₀ d₀ ++ z₀) hvd (by simp [header])
          · have hmem : x ∈ "] - ".toList ++ d := by
              rw [hdt]
              exact List.mem_append_right _ (List.mem_cons_self _ _)
            exact hash_not_mem_dateTail hvd.isDate (hhead x _ hW' ▸ hmem)
        · exact hno v d (a₃ ++ (header v₀ d₀ ++ z₀)) hvd (by simp [header])
      · refine hno (c' ++ "## [".toList ++ v₀) d₀ z₀ ⟨by simp, ?_, h₀.isDate⟩ (by simp [header])
        simp only [List.mem_append, not_or]
        exact ⟨⟨fun hc => hvd.bracket_not_mem (List.mem_append_left _ hc), by decide⟩,
          h₀.bracket_not_mem⟩


/-! ### The scan over a text -/

/-- A match moved `n` characters to the right. -/
def ReMatch.shift (n : Nat) (m : ReMatch) : ReMatch :=
  ⟨m.start + n, m.stop + n, m.group⟩

theorem Re.findAll_add (r : Re) (n : Nat) : ∀ (skip i : Nat) (prev : Option Char) (cs : List Char),
    r.findAll skip (i + n) prev cs = (r.findAll skip i prev cs).map (ReMatch.shift n)
  | _, _, _, [] => by simp [Re.findAll]
  | skip + 1, i, _, c :: cs => by
    rw [Re.findAll, Re.findAll, Nat.add_right_comm]
    exact Re.findAll_add r n skip (i + 1) _ cs
  | 0, i, prev, c :: cs => by
    rw [Re.findAll, Re.findAll]
    cases r.matchHere prev (c :: cs) with
    | none =>
      rw [Nat.add_right_comm]
      exact Re.findAll_add r n 0 (i + 1) _ cs
    | some res =>
      simp only [List.map_cons, ReMatch.shift, Nat.add_right_comm _ n, Re.findAll_add r n _ (i + 1)]

/-- Passing over the rest of a match. -/
theorem Re.findAll_pass (r : Re) : ∀ (x : List Char) (i : Nat) (prev : Option Char) (cs : List Char),
    r.findAll x.length i prev (x ++ cs) = r.findAll 0 (i + x.length) (lastChar prev x) cs
  | [], _, _, _ => rfl
  | c :: x, i, prev, cs => by
    rw [List.length_cons, List.cons_append, Re.findAll, Re.findAll_pass r x (i + 1) (some c) cs,
      lastChar_cons, Nat.add_assoc, Nat.add_comm 1]

/-- A stretch where no match starts is passed over. -/
theorem Re.findAll_of_none (r : Re) : ∀ (x : List Char) (i : Nat) (prev : Option Char) (cs : List Char),
    (∀ x₁ x₂, x = x₁ ++ x₂ → x₂ ≠ [] → r.matchHere (lastChar prev x₁) (x₂ ++ cs) = none) →
    r.findAll 0 i prev (x ++ cs) = r.findAll 0 (i + x.length) (lastChar prev x) cs
  | [], _, _, _, _ => rfl
  | c :: x, i, prev, cs, h => by
    have h₀ := h [] (c :: x) rfl (List.cons_ne_nil _ _)
    rw [lastChar_nil, List.cons_append] at h₀
    rw [List.cons_append, Re.findAll, h₀]
    dsimp only
    rw [Re.findAll_of_none r x (i + 1) (some c) cs fun x₁ x₂ hx hne => by
        simpa using h (c :: x₁) x₂ (by simp [hx]) hne,
      lastChar_cons, List.length_cons, Nat.add_assoc, Nat.add_comm 1]

/-- A match reported, and the scan goes on after it. -/
theorem Re.findAll_of_some (r : Re) {i : Nat} {prev : Option Char} {x rest : List Char}
    {g : Option (List Char)} (hx : x ≠ []) (h : r.matchHere prev (x ++ rest) = some (g, rest)) :
    r.findAll 0 i prev (x ++ rest) =
      ⟨i, i + x.length, g⟩ :: r.findAll 0 (i + x.length) (lastChar prev x) rest := by
  obtain ⟨c, x, rfl⟩ := List.exists_cons_of_ne_nil hx
  rw [List.cons_append] at h ⊢
  rw [Re.findAll, h]
  dsimp only
  have hlen : (c :: (x ++ rest)).length - rest.length = x.length + 1 := by simp; omega
  rw [hlen, Nat.add_sub_cancel, Re.findAll_pass r x (i + 1) (some c) rest, lastChar_cons,
    List.length_cons, Nat.add_assoc, Nat.add_comm 1]

/-- Every attempt started inside `a` answers alike before `w` and before `w'`, and a
match it finds ends inside `a`. -/
def Re.LocalTo (r : Re) (prev : Option Char) (a w w' : List Char) : Prop :=
  ∀ a₁ a₂, a = a₁ ++ a₂ → a₂ ≠ [] →
    (r.matchHere (lastChar prev a₁) (a₂ ++ w) = none ∧
      r.matchHere (lastChar prev a₁) (a₂ ++ w') = none) ∨
    ∃ g t, r.matchHere (lastChar prev a₁) (a₂ ++ w) = some (g, t ++ w) ∧
      r.matchHere (lastChar prev a₁) (a₂ ++ w') = some (g, t ++ w')

theorem Re.LocalTo.cons {r : Re} {prev : Option Char} {c : Char} {a w w' : List Char}
    (h : r.LocalTo prev (c :: a) w w') : r.LocalTo (some c) a w w' := fun a₁ a₂ ha hne => by
  simpa using h (c :: a₁) a₂ (by simp [ha]) hne

/-- **A scan that does not look past `a`.**  When the attempts started inside `a`
answer alike before `w` and before `w'` and their matches end inside `a`, the scan
of `a ++ w'` reports the matches the scan of `a ++ w` reports inside `a`, then
goes on at the start of `w'`. -/
theorem Re.findAll_splice (r : Re) {w w' : List Char} :
    ∀ (a : List Char) (skip i : Nat) (prev : Option Char), skip ≤ a.length → r.LocalTo prev a w w' →
      r.findAll skip i prev (a ++ w') =
        (r.findAll skip i prev (a ++ w)).filter (fun m => m.start < i + a.length) ++
          r.findAll 0 (i + a.length) (lastChar prev a) w'
  | [], skip, i, prev, hskip, _ => by
    obtain rfl : skip = 0 := Nat.le_zero.mp hskip
    rw [List.filter_eq_nil_iff.mpr fun m hm => by have := (Re.findAll_start hm).1; simp; omega]
    rfl
  | c :: a, skip + 1, i, prev, hskip, hloc => by
    rw [List.cons_append, Re.findAll, List.cons_append, Re.findAll,
      Re.findAll_splice r a skip (i + 1) (some c) (by simpa using hskip) hloc.cons, lastChar_cons,
      List.length_cons, Nat.add_assoc, Nat.add_comm 1]
  | c :: a, 0, i, prev, _, hloc => by
    rw [List.cons_append, Re.findAll, List.cons_append, Re.findAll]
    rcases hloc [] (c :: a) rfl (List.cons_ne_nil _ _) with ⟨h, h'⟩ | ⟨g, t, h, h'⟩
    · rw [lastChar_nil, List.cons_append] at h h'
      rw [h, h']
      dsimp only
      rw [Re.findAll_splice r a 0 (i + 1) (some c) (Nat.zero_le _) hloc.cons, lastChar_cons,
        List.length_cons, Nat.add_assoc, Nat.add_comm 1]
    · rw [lastChar_nil, List.cons_append] at h h'
      rw [h, h']
      dsimp only
      obtain ⟨y, hy⟩ := Re.matchHere_sound h
      have hlen := congrArg List.length hy
      simp only [List.length_cons, List.length_append] at hlen
      have hk : (c :: (a ++ w')).length - (t ++ w').length = (c :: (a ++ w)).length - (t ++ w).length := by
        simp only [List.length_cons, List.length_append]
        omega
      rw [hk, List.filter_cons_of_pos (by simp), List.cons_append,
        Re.findAll_splice r a _ (i + 1) (some c) (by simp; omega) hloc.cons, lastChar_cons,
        List.length_cons, Nat.add_assoc, Nat.add_comm 1]
      simp only [List.length_cons]

theorem versionPattern_findAll_prev (prev prev' : Option Char) :
    ∀ (skip i : Nat) (cs : List Char),
      versionPattern.findAll skip i prev cs = versionPattern.findAll skip i prev' cs
  | _, _, [] => by simp [Re.findAll]
  | _ + 1, _, _ :: _ => rfl
  | 0, _, c :: cs => by rw [Re.findAll, Re.findAll, versionPattern_matchHere_prev prev prev']


/-- **The scan before a header carries over to a text with another header
there.**  If the scan of `a ++ w` reports a match at the start of `w`, then the
scan of `a ++ w'` reports the same matches inside `a` and goes on at the start of
`w'`, whenever `w` and `w'` both open with a version header. -/
theorem findAll_splice_before {w w' : List Char} (hw : ∃ v d z, IsHeader v d ∧ w = header v d ++ z)
    (hw' : ∃ v d z, IsHeader v d ∧ w' = header v d ++ z) :
    ∀ (a : List Char) (skip i : Nat) (prev : Option Char),
      (∃ m ∈ versionPattern.findAll skip i prev (a ++ w), m.start = i + a.length) →
      versionPattern.findAll skip i prev (a ++ w') =
        (versionPattern.findAll skip i prev (a ++ w)).filter (fun m => m.start < i + a.length) ++
          versionPattern.findAll 0 (i + a.length) (lastChar prev a) w'
  | [], skip, i, prev, ⟨m, hm, hstart⟩ => by
    simp only [List.nil_append, List.length_nil, Nat.add_zero, lastChar_nil] at hm hstart ⊢
    obtain rfl : skip = 0 := by have := Re.findAll_skip hm; omega
    rw [List.filter_eq_nil_iff.mpr fun m hm => by have := (Re.findAll_start hm).1; simp; omega,
      List.nil_append]
  | c :: a, skip + 1, i, prev, ⟨m, hm, hstart⟩ => by
    rw [List.cons_append, Re.findAll] at hm ⊢
    rw [List.cons_append, Re.findAll,
      findAll_splice_before hw hw' a skip (i + 1) (some c) ⟨m, hm, by simp at hstart; omega⟩,
      lastChar_cons, List.length_cons, Nat.add_assoc, Nat.add_comm 1]
  | c :: a, 0, i, prev, ⟨m, hm, hstart⟩ => by
    simp only [List.length_cons] at hstart
    rw [List.cons_append, Re.findAll] at hm
    rw [List.cons_append, Re.findAll, List.cons_append, Re.findAll]
    cases hmatch : versionPattern.matchHere prev (c :: (a ++ w)) with
    | none =>
      rw [hmatch] at hm
      have hnone : versionPattern.matchHere prev ((c :: a) ++ w') = none :=
        versionPattern_matchHere_append_eq_none hw hw' hmatch
      rw [List.cons_append] at hnone
      rw [hnone]
      dsimp only
      rw [findAll_splice_before hw hw' a 0 (i + 1) (some c) ⟨m, hm, by omega⟩, lastChar_cons,
        List.length_cons, Nat.add_assoc, Nat.add_comm 1]
    | some res =>
      obtain ⟨g, rest⟩ := res
      rw [hmatch] at hm
      dsimp only at hm ⊢
      have hpw : (versionPattern.findAll 0 i prev (c :: (a ++ w))).Pairwise
          fun a b => a.stop ≤ b.start ∧ a.start < b.start := Re.findAll_pairwise versionPattern
      rw [Re.findAll, hmatch] at hpw
      rcases List.mem_cons.mp hm with rfl | hmt
      · simp at hstart
      have hle := ((List.pairwise_cons.mp hpw).1 m hmt).1
      dsimp only at hle
      obtain ⟨x, hx⟩ := Re.matchHere_sound hmatch
      have hxlen : (c :: (a ++ w)).length - rest.length = x.length := by rw [hx]; simp
      obtain ⟨r, hr, rfl⟩ : ∃ r, c :: a = x ++ r ∧ rest = r ++ w := by
        rcases List.append_eq_append_iff.mp (show (c :: a) ++ w = x ++ rest from hx) with
          ⟨a', rfl, hwa⟩ | ⟨r, hca, hrest⟩
        · have hwl := congrArg List.length hwa
          obtain rfl : a' = [] := List.eq_nil_of_length_eq_zero (by simp at hxlen hle hwl; omega)
          exact ⟨[], by simp, by simpa using hwa.symm⟩
        · exact ⟨r, hca, hrest⟩
      have hmatch' : versionPattern.matchHere prev ((c :: a) ++ w') = some (g, r ++ w') :=
        versionPattern_matchHere_append_left (u := c :: a)
          (show versionPattern.matchHere prev ((c :: a) ++ w) = some (g, r ++ w) from hmatch)
      rw [List.cons_append] at hmatch'
      rw [hmatch']
      dsimp only
      have hrlen := congrArg List.length hr
      have hL : (c :: (a ++ w')).length - (r ++ w').length =
          (c :: (a ++ w)).length - (r ++ w).length := by
        simp only [List.length_cons, List.length_append] at hrlen ⊢
        omega
      rw [hL, List.filter_cons_of_pos (by simp), List.cons_append,
        findAll_splice_before hw hw' a _ (i + 1) (some c) ⟨m, hmt, by omega⟩, lastChar_cons,
        Nat.add_assoc, Nat.add_comm 1]
      simp only [List.length_cons]


/-! ### The section written -/

theorem prefix_of_prefix_append_cons {p x y : List Char} {c : Char} (hc : c ∉ p)
    (h : p <+: x ++ c :: y) : p <+: x := by
  rcases List.prefix_or_prefix_of_prefix h (List.prefix_append x (c :: y)) with h' | ⟨t, rfl⟩
  · exact h'
  · rcases t with _ | ⟨d, t⟩
    · simp
    · obtain ⟨rfl, -⟩ := List.cons_prefix_cons.mp ((List.prefix_append_right_inj x).mp h)
      exact absurd (List.mem_append_right x (List.mem_cons_self _ _)) hc

theorem versionPattern_matchHere_eq_none_of_not_open {prev : Option Char} {cs : List Char}
    (h : ¬ "## [".toList <+: cs) : versionPattern.matchHere prev cs = none := by
  cases hm : versionPattern.matchHere prev cs with
  | none => rfl
  | some r =>
    obtain ⟨v, d, -, -, rfl⟩ := versionPattern_matchHere_eq_some hm
    exact absurd ⟨v ++ "] - ".toList ++ d ++ r.2, by simp [header]⟩ h

/-- Past its header, no suffix of the section opens with `## [` when the entries
hold none. -/
theorem not_prefix_sectionTail {entries : List Char} (he : ¬ "## [".toList <:+: entries)
    {x₁ x₂ : List Char} (hx : "\n\n".toList ++ entries ++ "\n\n".toList = x₁ ++ x₂) (hne : x₂ ≠ [])
    (B : List Char) : ¬ "## [".toList <+: x₂ ++ B := by
  intro hp
  have hnl : '\n' ∉ "## [".toList := by decide
  obtain ⟨x₃, b, rfl⟩ := (List.eq_nil_or_concat x₂).resolve_left hne
  rw [List.concat_eq_append] at hx hp
  obtain ⟨hx₃, hb⟩ := List.append_inj' (show (x₁ ++ x₃) ++ [b] = ("\n\n".toList ++ entries ++ ['\n']) ++ ['\n'] by
    rw [List.append_assoc, ← hx]; simp) rfl
  obtain rfl := List.singleton_inj.mp hb
  have hp₃ := prefix_of_prefix_append_cons hnl (by simpa using hp)
  obtain ⟨x₄, b', rfl⟩ := (List.eq_nil_or_concat x₃).resolve_left (by rintro rfl; simp at hp₃)
  rw [List.concat_eq_append] at hx₃ hp₃
  obtain ⟨hx₄, hb'⟩ := List.append_inj' (show (x₁ ++ x₄) ++ [b'] = ("\n\n".toList ++ entries) ++ ['\n'] by
    rw [List.append_assoc]; exact hx₃) rfl
  obtain rfl := List.singleton_inj.mp hb'
  have hp₄ := prefix_of_prefix_append_cons hnl (by simpa using hp₃)
  rcases List.append_eq_append_iff.mp hx₄ with ⟨a', hnn, rfl⟩ | ⟨c', -, rfl⟩
  · rcases a' with _ | ⟨d, a'⟩
    · exact he (by simpa using hp₄.isInfix)
    · have hd : d = '\n' := by
        have : d ∈ "\n\n".toList := by rw [hnn]; simp
        simpa using this
      subst hd
      simp at hp₄
  · exact he (hp₄.isInfix.trans (List.suffix_append _ _).isInfix)

/-- Scanning the section and what follows: the section's header, then the scan of
what follows, moved by the section's length. -/
theorem findAll_newSection {version date entries : List Char} (h : IsHeader version date)
    (he : ¬ "## [".toList <:+: entries) (k : Nat) (prev : Option Char) (B : List Char) :
    versionPattern.findAll 0 k prev (newSection version date entries ++ B) =
      ⟨k, k + (header version date).length, some version⟩ ::
        (versionPattern.findAll 0 k prev B).map (ReMatch.shift (newSection version date entries).length) := by
  have hsec : newSection version date entries =
      header version date ++ ("\n\n".toList ++ entries ++ "\n\n".toList) := by
    simp [newSection, header]
  rw [hsec, List.append_assoc, Re.findAll_of_some versionPattern (by simp [header])
    (versionPattern_matchHere_header prev _ h),
    Re.findAll_of_none versionPattern _ _ _ B fun x₁ x₂ hx hne =>
      versionPattern_matchHere_eq_none_of_not_open (not_prefix_sectionTail he hx hne B),
    versionPattern_findAll_prev _ prev, ← Re.findAll_add]
  simp only [List.length_append, Nat.add_assoc]


theorem length_take_start {content : List Char} {m : ReMatch}
    (hm : m ∈ versionPattern.finditer content) : (content.take m.start).length = m.start := by
  have := (Re.findAll_start hm).2
  simp only [List.length_take]
  omega

theorem header_prefix_drop_start {content : List Char} {m : ReMatch}
    (hm : m ∈ versionPattern.finditer content) :
    ∃ v d z, IsHeader v d ∧ content.drop m.start = header v d ++ z := by
  obtain ⟨x, y, rest, hc, hstart, -, hmatch⟩ := Re.findAll_sound hm
  obtain ⟨v, d, hvd, -, hy⟩ := versionPattern_matchHere_eq_some hmatch
  rw [Nat.zero_add] at hstart
  exact ⟨v, d, rest, hvd, by rw [hc, hstart, List.append_assoc, List.drop_left, hy]⟩

/-- **The scan of the text written.**  With the section inserted at the start of a
header match, `finditer` reports the matches before it, the section's header,
then the matches from it on, moved by the section's length. -/
theorem finditer_insert {content : List Char} {m₀ : ReMatch}
    (hm₀ : m₀ ∈ versionPattern.finditer content) {version date entries : List Char}
    (h : IsHeader version date) (he : ¬ "## [".toList <:+: entries) :
    versionPattern.finditer (content.take m₀.start ++ newSection version date entries ++
        content.drop m₀.start) =
      (versionPattern.finditer content).filter (fun m => m.start < m₀.start) ++
        ⟨m₀.start, m₀.start + (header version date).length, some version⟩ ::
          ((versionPattern.finditer content).filter (fun m => m₀.start ≤ m.start)).map
            (ReMatch.shift (newSection version date entries).length) := by
  have hlen := length_take_start hm₀
  have hw := header_prefix_drop_start hm₀
  have hw' : ∃ v d z, IsHeader v d ∧
      newSection version date entries ++ content.drop m₀.start = header v d ++ z :=
    ⟨version, date, "\n\n".toList ++ entries ++ "\n\n".toList ++ content.drop m₀.start, h,
      by simp [newSection, header]⟩
  have hfound : ∃ m ∈ versionPattern.findAll 0 0 none
      (content.take m₀.start ++ content.drop m₀.start), m.start = 0 + (content.take m₀.start).length :=
    ⟨m₀, by rwa [List.take_append_drop], by rw [hlen, Nat.zero_add]⟩
  have hold := findAll_splice_before hw hw _ 0 0 none hfound
  have hnew := findAll_splice_before hw hw' _ 0 0 none hfound
  rw [List.take_append_drop] at hold hnew
  rw [hlen, Nat.zero_add] at hold hnew
  unfold Re.finditer
  rw [List.append_assoc, hnew, findAll_newSection h he]
  congr 2
  conv_rhs => rw [hold]
  rw [List.filter_append, List.filter_eq_nil_iff.mpr fun m hm => by
      simpa using List.of_mem_filter hm,
    List.filter_eq_self.mpr fun m hm => by simpa using (Re.findAll_start hm).1, List.nil_append]

end ReleaseScripts
