/-
ReleaseScripts/Matches.lean

What a pattern means, apart from how `Re.run` searches for a match, and the
matcher proved against it: `re.search` returns the leftmost offset at which the
pattern's meaning matches.

Design.  `Re.Matches r prev w rest` reads: at a cursor whose previous character
is `prev`, with `w ++ rest` after it, `r` matches `w`.  The previous character
and the text after the match are there for the anchors and the lookahead.  The
relation says nothing about which match Python picks among several; that is
the matcher's backtracking order, pinned down pattern by pattern where the
scripts depend on it.  The matcher is sound for the relation (`run_matches`,
one case per constructor) and complete for it: whenever the relation holds and
the continuation accepts whatever follows, the backtracking finds a match
(`run_complete`, by induction on the derivation).  Together they give

    (r.matchHere prev cs).isSome ↔ ∃ w rest, cs = w ++ rest ∧ r.Matches prev w rest.

Main results: `search_spec` (`re.search` returns `None` exactly when the pattern
matches nowhere; otherwise its span is matched by the pattern at its offset,
and no earlier offset starts a match) and `sub_eq_spliceMatches` (`re.sub`
replaces exactly the matches `re.finditer` reports).
-/
import ReleaseScripts.Regex

namespace ReleaseScripts

/-! ### Meaning -/

/-- What a pattern means: `r.Matches prev w rest` when `r` matches the text `w`
at a cursor whose previous character is `prev` and with `rest` after `w`. -/
inductive Re.Matches : Re → Option Char → List Char → List Char → Prop
  | eps {prev rest} : Re.Matches .eps prev [] rest
  | cls {p : Char → Bool} {c prev rest} : p c → Re.Matches (.cls p) prev [c] rest
  | seq {r s prev w₁ w₂ rest} : Re.Matches r prev w₁ (w₂ ++ rest) →
      Re.Matches s (lastChar prev w₁) w₂ rest → Re.Matches (.seq r s) prev (w₁ ++ w₂) rest
  | altL {r s prev w rest} : Re.Matches r prev w rest → Re.Matches (.alt r s) prev w rest
  | altR {r s prev w rest} : Re.Matches s prev w rest → Re.Matches (.alt r s) prev w rest
  | rep {p : Char → Bool} {n greedy prev w rest} : (∀ c ∈ w, p c) → n ≤ w.length →
      Re.Matches (.rep p n greedy) prev w rest
  | bol {prev rest} : prev = none ∨ prev = some '\n' → Re.Matches .bol prev [] rest
  | bos {rest} : Re.Matches .bos none [] rest
  | eos {prev} : Re.Matches .eos prev [] []
  | eol {prev rest} : rest = [] ∨ rest = ['\n'] → Re.Matches .eol prev [] rest
  | ahead {r prev w rest} : Re.Matches r prev w rest → Re.Matches (.ahead r) prev [] (w ++ rest)
  | group {r prev w rest} : Re.Matches r prev w rest → Re.Matches (.group r) prev w rest

/-! ### The matcher against the meaning -/

/-- A repetition reads a run of the class at least `n` long, then hands over. -/
theorem repRun_matches {p : Char → Bool} {greedy : Bool} {k : Option Char → List Char → Option Res}
    {res : Res} : ∀ {n prev cs}, repRun p greedy k n prev cs = some res →
      ∃ w rest, cs = w ++ rest ∧ (∀ c ∈ w, p c) ∧ n ≤ w.length ∧ k (lastChar prev w) rest = some res
  | n, prev, [], h => by
    simp only [repRun] at h
    split at h
    · exact ⟨[], [], rfl, by simp, by omega, h⟩
    · cases h
  | n, prev, c :: cs, h => by
    have more : (if p c then repRun p greedy k (n - 1) (some c) cs else none) = some res →
        ∃ w rest, c :: cs = w ++ rest ∧ (∀ c ∈ w, p c) ∧ n ≤ w.length ∧
          k (lastChar prev w) rest = some res := by
      intro hm
      split at hm
      · obtain ⟨w, rest, rfl, hw, hn, hk⟩ := repRun_matches hm
        exact ⟨c :: w, rest, rfl, by simpa [*] using hw, by simp; omega, by simpa using hk⟩
      · cases hm
    have stop : (if n = 0 then k prev (c :: cs) else none) = some res →
        ∃ w rest, c :: cs = w ++ rest ∧ (∀ c ∈ w, p c) ∧ n ≤ w.length ∧
          k (lastChar prev w) rest = some res := by
      intro hs
      split at hs
      · exact ⟨[], c :: cs, rfl, by simp, by omega, hs⟩
      · cases hs
    simp only [repRun] at h
    cases greedy <;> simp only [Bool.false_eq_true, if_false, if_true, Option.or_eq_some] at h
    · rcases h with h | ⟨-, h⟩
      · exact stop h
      · exact more h
    · rcases h with h | ⟨-, h⟩
      · exact more h
      · exact stop h

/-- **The matcher is sound**: what it reads, the pattern matches. -/
theorem Re.run_matches (r : Re) : ∀ {g prev cs k} {res : Res}, r.run g prev cs k = some res →
    ∃ g' w rest, cs = w ++ rest ∧ r.Matches prev w rest ∧ k g' (lastChar prev w) rest = some res := by
  induction r with
  | eps => intro g prev cs k res h; exact ⟨g, [], cs, rfl, .eps, h⟩
  | cls p =>
    intro g prev cs k res h
    cases cs with
    | nil => cases h
    | cons c cs =>
      rw [Re.run_cls] at h
      split at h
      · exact ⟨g, [c], cs, rfl, .cls ‹_›, h⟩
      · cases h
  | seq r s ihr ihs =>
    intro g prev cs k res h
    obtain ⟨g₁, w₁, rest₁, rfl, hr, h₁⟩ := ihr h
    obtain ⟨g₂, w₂, rest₂, rfl, hs, h₂⟩ := ihs h₁
    exact ⟨g₂, w₁ ++ w₂, rest₂, by simp, .seq hr hs, by simpa using h₂⟩
  | alt r s ihr ihs =>
    intro g prev cs k res h
    rw [Re.run_alt, Option.or_eq_some] at h
    rcases h with h | ⟨-, h⟩
    · obtain ⟨g', w, rest, rfl, hr, hk⟩ := ihr h
      exact ⟨g', w, rest, rfl, .altL hr, hk⟩
    · obtain ⟨g', w, rest, rfl, hs, hk⟩ := ihs h
      exact ⟨g', w, rest, rfl, .altR hs, hk⟩
  | rep p n greedy =>
    intro g prev cs k res h
    obtain ⟨w, rest, rfl, hw, hn, hk⟩ := repRun_matches h
    exact ⟨g, w, rest, rfl, .rep hw hn, hk⟩
  | bol =>
    intro g prev cs k res h
    rw [Re.run_bol] at h
    split at h
    · exact ⟨g, [], cs, rfl, .bol ‹_›, h⟩
    · cases h
  | bos =>
    intro g prev cs k res h
    simp only [Re.run] at h
    split at h
    · subst_vars; exact ⟨g, [], cs, rfl, .bos, h⟩
    · cases h
  | eos =>
    intro g prev cs k res h
    rw [Re.run_eos] at h
    split at h
    · subst_vars; exact ⟨g, [], [], rfl, .eos, h⟩
    · cases h
  | eol =>
    intro g prev cs k res h
    simp only [Re.run] at h
    split at h
    · exact ⟨g, [], cs, rfl, .eol ‹_›, h⟩
    · cases h
  | ahead r ih =>
    intro g prev cs k res h
    rw [Re.run_ahead] at h
    split at h
    · rename_i hs
      obtain ⟨m, hm⟩ := Option.isSome_iff_exists.mp hs
      obtain ⟨_, w, rest, rfl, hr, -⟩ := ih hm
      exact ⟨g, [], w ++ rest, rfl, .ahead hr, h⟩
    · cases h
  | group r ih =>
    intro g prev cs k res h
    rw [Re.run_group] at h
    obtain ⟨_, w, rest, rfl, hr, hk⟩ := ih h
    exact ⟨_, w, rest, rfl, .group hr, hk⟩

/-- A repetition finds a run of the class that is long enough. -/
theorem repRun_complete {p : Char → Bool} {greedy : Bool} {k : Option Char → List Char → Option Res}
    {rest : List Char} : ∀ {w : List Char} {n prev}, (∀ c ∈ w, p c) → n ≤ w.length →
      (k (lastChar prev w) rest).isSome → (repRun p greedy k n prev (w ++ rest)).isSome
  | [], n, prev, _, hn, hk => by
    obtain rfl : n = 0 := by simpa using hn
    cases rest with
    | nil => simpa [repRun] using hk
    | cons c cs => cases greedy <;> simp_all [repRun, Option.isSome_or]
  | c :: w, n, prev, hw, hn, hk => by
    have hmore : (repRun p greedy k (n - 1) (some c) (w ++ rest)).isSome :=
      repRun_complete (fun d hd => hw d (List.mem_cons_of_mem _ hd)) (by simp at hn; omega)
        (by simpa using hk)
    have hc : p c := hw c (List.mem_cons_self _ _)
    rw [List.cons_append, repRun]
    cases greedy <;> simp [hc, hmore, Option.isSome_or]

/-- **The matcher is complete**: where the pattern matches and the continuation
accepts what follows, backtracking finds a match. -/
theorem Re.run_complete {r : Re} {prev : Option Char} {w rest : List Char} (h : r.Matches prev w rest) :
    ∀ {g k}, (∀ g', (k g' (lastChar prev w) rest).isSome) → (r.run g prev (w ++ rest) k).isSome := by
  induction h with
  | eps => intro g k hk; exact hk g
  | cls hc => intro g k hk; simpa [Re.run_cls, hc] using hk g
  | seq _ _ ihr ihs =>
    intro g k hk
    rw [List.append_assoc, Re.run_seq]
    exact ihr fun g' => ihs fun g'' => by simpa using hk g''
  | altL _ ih => intro g k hk; simp [Re.run_alt, Option.isSome_or, ih hk]
  | altR _ ih => intro g k hk; simp [Re.run_alt, Option.isSome_or, ih hk]
  | rep hw hn => intro g k hk; exact repRun_complete hw hn (hk g)
  | bol hb => intro g k hk; simpa [Re.run_bol, hb] using hk g
  | bos => intro g k hk; simpa [Re.run] using hk g
  | eos => intro g k hk; simpa [Re.run_eos] using hk g
  | eol he => intro g k hk; simpa [Re.run, he] using hk g
  | ahead _ ih =>
    intro g k hk
    rw [List.nil_append, Re.run_ahead, if_pos (ih (k := fun g' _ cs' => some (g', cs')) fun _ => rfl)]
    exact hk g
  | group _ ih =>
    intro g k hk
    rw [Re.run_group]
    exact ih fun _ => hk _

theorem Re.matchHere_isSome_iff {r : Re} {prev : Option Char} {cs : List Char} :
    (r.matchHere prev cs).isSome ↔ ∃ w rest, cs = w ++ rest ∧ r.Matches prev w rest := by
  constructor
  · intro h
    obtain ⟨res, hres⟩ := Option.isSome_iff_exists.mp h
    obtain ⟨_, w, rest, rfl, hr, -⟩ := r.run_matches hres
    exact ⟨w, rest, rfl, hr⟩
  · rintro ⟨w, rest, rfl, hr⟩
    exact Re.run_complete hr fun _ => rfl

/-! ### `re.search` -/

theorem Re.matchHere_eq_none_iff {r : Re} {prev : Option Char} {cs : List Char} :
    r.matchHere prev cs = none ↔ ∀ w rest, cs = w ++ rest → ¬ r.Matches prev w rest := by
  rw [← Option.not_isSome_iff_eq_none, Re.matchHere_isSome_iff]
  simp

theorem Re.matches_of_matchHere {r : Re} {prev : Option Char} {y rest : List Char}
    {g : Option (List Char)} (h : r.matchHere prev (y ++ rest) = some (g, rest)) :
    r.Matches prev y rest := by
  obtain ⟨_, w, rest', hw, hr, hk⟩ := r.run_matches h
  obtain rfl : rest' = rest := (Prod.mk.inj (Option.some.inj hk)).2
  rwa [List.append_cancel_right hw]

/-- The search reports the first cursor at which a match starts. -/
theorem Re.searchAt_first {r : Re} {j : Nat} {m : Res} :
    ∀ {i prev cs}, r.searchAt i prev cs = some (j, m) →
      ∀ x rest, cs = x ++ rest → i + x.length < j → r.matchHere (lastChar prev x) rest = none
  | i, prev, [], h, x, rest, _, hlt => by
    simp only [Re.searchAt, Option.map_eq_some', Prod.mk.injEq] at h
    obtain ⟨_, _, rfl, -⟩ := h
    omega
  | i, prev, c :: cs, h, x, rest, hx, hlt => by
    rw [Re.searchAt] at h
    cases hm : r.matchHere prev (c :: cs) with
    | some m' =>
      simp only [hm, Option.some.injEq, Prod.mk.injEq] at h
      omega
    | none =>
      simp only [hm] at h
      cases x with
      | nil => rw [List.nil_append] at hx; subst hx; exact hm
      | cons c' x =>
        obtain ⟨rfl, rfl⟩ := List.cons.inj hx
        simpa using Re.searchAt_first h x rest rfl (by simp at hlt; omega)

/-- **`re.search` finds the leftmost offset at which the pattern's meaning
matches.**  It returns `None` exactly when the pattern matches nowhere in the
text; otherwise the text between `start()` and `end()` is matched by the
pattern at that offset, and no earlier offset starts any match. -/
theorem Re.search_spec (r : Re) (text : List Char) :
    (r.search text = none ↔
      ∀ x w rest, text = x ++ w ++ rest → ¬ r.Matches (lastChar none x) w rest) ∧
    ∀ m, r.search text = some m → ∃ x y rest, text = x ++ y ++ rest ∧ m.start = x.length ∧
      m.stop = (x ++ y).length ∧ r.Matches (lastChar none x) y rest ∧
      ∀ x' w' rest', text = x' ++ w' ++ rest' → x'.length < x.length →
        ¬ r.Matches (lastChar none x') w' rest' := by
  refine ⟨?_, fun m hm => ?_⟩
  · simp only [Re.search, Option.map_eq_none', Re.searchAt_eq_none_iff, Re.matchHere_eq_none_iff]
    constructor
    · rintro h x w rest rfl
      exact h x (w ++ rest) (List.append_assoc _ _ _) w rest rfl
    · rintro h x cs rfl w rest rfl
      exact h x w rest (List.append_assoc _ _ _).symm
  · obtain ⟨x, y, rest, htext, hstart, hstop, hmatch⟩ := Re.search_sound hm
    refine ⟨x, y, rest, htext, hstart, hstop, Re.matches_of_matchHere hmatch, ?_⟩
    simp only [Re.search, Option.map_eq_some'] at hm
    obtain ⟨⟨j, res⟩, hs, rfl⟩ := hm
    intro x' w' rest' hx' hlt
    exact Re.matchHere_eq_none_iff.mp (Re.searchAt_first hs x' (w' ++ rest')
      (by simp [hx']) (by simpa [← hstart] using hlt)) w' rest' rfl

/-! ### `re.sub` against `re.finditer` -/

/-- `text` from offset `pos` on, with each span `[start, stop)` of the matches `ms`
replaced by `repl`. -/
def spliceMatches (text repl : List Char) : Nat → List ReMatch → List Char
  | pos, [] => text.drop pos
  | pos, m :: ms => (text.drop pos).take (m.start - pos) ++ repl ++ spliceMatches text repl m.stop ms

theorem spliceMatches_cons {text repl cs : List Char} {c : Char} {pos : Nat}
    (ht : text.drop pos = c :: cs) :
    ∀ {ms : List ReMatch}, (∀ m ∈ ms.head?, pos + 1 ≤ m.start) →
      spliceMatches text repl pos ms = c :: spliceMatches text repl (pos + 1) ms
  | [], _ => by
    simp only [spliceMatches, ← List.drop_drop, ht]
    rfl
  | m :: ms, h => by
    have hm : pos + 1 ≤ m.start := h m rfl
    simp only [spliceMatches, ← List.drop_drop, ht]
    rw [show m.start - pos = (m.start - (pos + 1)) + 1 by omega]
    rfl

/-- From any cursor, `sub` writes what `findAll` reports, spliced into the text. -/
theorem Re.subAux_eq_spliceMatches {r : Re} (hr : ∀ prev cs g, r.matchHere prev cs ≠ some (g, cs))
    {repl text : List Char} :
    ∀ {cs : List Char} {skip i : Nat} {prev : Option Char}, text.drop i = cs → skip ≤ cs.length →
      r.subAux repl skip prev cs = spliceMatches text repl (i + skip) (r.findAll skip i prev cs)
  | [], skip, i, prev, ht, _ => by
    simp only [Re.subAux_nil, Re.findAll, spliceMatches, ← List.drop_drop, ht, List.drop_nil]
  | c :: cs, skip + 1, i, prev, ht, hs => by
    have ht' : text.drop (i + 1) = cs := by rw [← List.drop_drop, ht]; rfl
    rw [Re.subAux, Re.findAll, Re.subAux_eq_spliceMatches hr ht' (by simp at hs; omega),
      Nat.add_right_comm, Nat.add_assoc]
  | c :: cs, 0, i, prev, ht, _ => by
    have ht' : text.drop (i + 1) = cs := by rw [← List.drop_drop, ht]; rfl
    rw [Re.subAux, Re.findAll]
    cases hm : r.matchHere prev (c :: cs) with
    | some res =>
      obtain ⟨g, rest⟩ := res
      obtain ⟨x, hx⟩ := Re.matchHere_sound hm
      have hx0 : x ≠ [] := by
        rintro rfl
        rw [List.nil_append] at hx
        subst hx
        exact hr _ _ _ hm
      have hlen : (c :: cs).length - rest.length = x.length := by rw [hx]; simp
      have hpos : 0 < x.length := List.length_pos.mpr hx0
      simp only [Nat.add_zero]
      have hcs : x.length ≤ cs.length + 1 := by
        have := congrArg List.length hx
        simp only [List.length_cons, List.length_append] at this
        omega
      rw [Re.subAux_eq_spliceMatches hr ht' (by omega)]
      simp only [spliceMatches, Nat.sub_self, List.take_zero, List.nil_append, hlen]
      congr 2
      omega
    | none =>
      simp only [Nat.add_zero]
      rw [Re.subAux_eq_spliceMatches hr ht' (Nat.zero_le _), Nat.add_zero]
      refine (spliceMatches_cons ht ?_).symm
      intro m hm'
      exact (Re.findAll_start (List.mem_of_mem_head? hm')).1

/-- **`re.sub` replaces exactly the matches `re.finditer` reports** by the
replacement and keeps the text between them, for a pattern that never matches the
empty text (as none of the scripts' patterns does) and a replacement without a
backslash (as both of `clean_content`'s are), which Python inserts as it is. -/
theorem Re.sub_eq_spliceMatches {r : Re} (hr : ∀ prev cs g, r.matchHere prev cs ≠ some (g, cs))
    (repl text : List Char) (_hrepl : '\\' ∉ repl) :
    r.sub repl text = spliceMatches text repl 0 (r.finditer text) :=
  Re.subAux_eq_spliceMatches hr rfl (Nat.zero_le _)

theorem Re.sub_eq_spliceMatches_hash :
    (∀ prev cs g, (Re.lit ['#']).matchHere prev cs ≠ some (g, cs)) ∧ '\\' ∉ ['x'] ∧
      (Re.lit ['#']).sub ['x'] "a#b#".toList =
        spliceMatches "a#b#".toList ['x'] 0 ((Re.lit ['#']).finditer "a#b#".toList) :=
  have hr : ∀ prev cs g, (Re.lit ['#']).matchHere prev cs ≠ some (g, cs) := fun _ _ _ h => by
    obtain ⟨rest, rfl, hk⟩ := Re.run_lit_sound ['#'] h
    have := congrArg List.length (Prod.mk.inj (Option.some.inj hk)).2
    simp at this
  ⟨hr, by decide, Re.sub_eq_spliceMatches hr _ _ (by decide)⟩

end ReleaseScripts
