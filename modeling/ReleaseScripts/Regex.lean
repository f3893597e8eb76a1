/-
ReleaseScripts/Regex.lean

The part of Python's `re` the two scripts use: a backtracking matcher in
continuation-passing style, with `re.match`, `re.search`, `re.finditer` and
`re.sub` on top of it.

Design.  A cursor is the character before it (`none` at the start of the
text) and the text after it; a pattern hands its continuation the capture of
group 1, the new previous character and the rest.  Alternation tries the
left branch first, a greedy repetition tries one more character before
stopping and a lazy one stops before trying one more: these are the orders in
which Python's engine backtracks, so the first success found is the match
Python reports.  Every repetition in the scripts is over one character class
(`\s+`, `.*?`, `[^\]]+`, `.+`), which is all `rep` allows, so every
definition here is structural.

`finditer` and `sub` restart after each match, as Python does.  Every
pattern given to them here consumes at least one character, so the rule
Python applies after an empty match never comes up and is not modelled.

Main results: `run_sound` (a match only moves the cursor forward over the
text it reads) and the search lemmas (`searchAt_eq_none_iff`,
`searchAt_of_first`, `search_sound`): `re.search` returns the leftmost
position at which the pattern matches, and the offsets of what it read.
-/
import ReleaseScripts.Text

namespace ReleaseScripts

/-! ### Syntax -/

/-- The regular expressions of the two scripts. -/
inductive Re where
  /-- The empty pattern. -/
  | eps
  /-- One character of a class. -/
  | cls (p : Char → Bool)
  | seq (r s : Re)
  | alt (r s : Re)
  /-- `p{least,}`: greedy (`*`, `+`) or lazy (`*?`). -/
  | rep (p : Char → Bool) (least : Nat) (greedy : Bool)
  /-- `^` under `MULTILINE`: the start of the text or just after a newline. -/
  | bol
  /-- `^` without `MULTILINE`: the start of the text. -/
  | bos
  /-- `\Z`: the end of the text. -/
  | eos
  /-- `$` without `MULTILINE`: the end of the text, or just before a final newline. -/
  | eol
  /-- `(?=r)`. -/
  | ahead (r : Re)
  /-- `(r)`, group 1 (no pattern here has a second group). -/
  | group (r : Re)

/-- A literal word, character by character under the comparison `eq`
(`=` plainly, case-folding under `re.IGNORECASE`). -/
def Re.word (eq : Char → Char → Bool) : List Char → Re
  | [] => .eps
  | a :: w => .seq (.cls (eq a)) (Re.word eq w)

/-- A literal word. -/
def Re.lit (w : List Char) : Re := Re.word (fun a c => c == a) w

/-! ### Matching -/

/-- What a match returns: the text of group 1, if it took part, and the text after the match. -/
abbrev Res := Option (List Char) × List Char

/-- `p{n,}` followed by the continuation `k`, greedy or lazy. -/
def repRun (p : Char → Bool) (greedy : Bool) (k : Option Char → List Char → Option Res) :
    Nat → Option Char → List Char → Option Res
  | n, prev, [] => if n = 0 then k prev [] else none
  | n, prev, c :: cs =>
    let more := if p c then repRun p greedy k (n - 1) (some c) cs else none
    let stop := if n = 0 then k prev (c :: cs) else none
    if greedy then more.or stop else stop.or more

/-- Match `r` at the cursor `(prev, cs)` with capture `g`, then run the continuation. -/
def Re.run : Re → Option (List Char) → Option Char → List Char →
    (Option (List Char) → Option Char → List Char → Option Res) → Option Res
  | eps, g, prev, cs, k => k g prev cs
  | cls p, g, _, c :: cs, k => if p c then k g (some c) cs else none
  | cls _, _, _, [], _ => none
  | seq r s, g, prev, cs, k => r.run g prev cs fun g' prev' cs' => s.run g' prev' cs' k
  | alt r s, g, prev, cs, k => (r.run g prev cs k).or (s.run g prev cs k)
  | rep p n greedy, g, prev, cs, k => repRun p greedy (k g) n prev cs
  | bol, g, prev, cs, k => if prev = none ∨ prev = some '\n' then k g prev cs else none
  | bos, g, prev, cs, k => if prev = none then k g prev cs else none
  | eos, g, prev, cs, k => if cs = [] then k g prev cs else none
  | eol, g, prev, cs, k => if cs = [] ∨ cs = ['\n'] then k g prev cs else none
  | ahead r, g, prev, cs, k =>
    if (r.run g prev cs fun g' _ cs' => some (g', cs')).isSome then k g prev cs else none
  | group r, g, prev, cs, k =>
    r.run g prev cs fun _ prev' cs' => k (some (cs.take (cs.length - cs'.length))) prev' cs'

/-! Equations of `run`, one per constructor, so that a proof unfolds one piece of a
pattern at a time and never a named pattern by accident. -/

section RunEquations

variable {g : Option (List Char)} {prev : Option Char} {cs : List Char}
  {k : Option (List Char) → Option Char → List Char → Option Res}

theorem Re.run_seq (r s : Re) :
    (Re.seq r s).run g prev cs k = r.run g prev cs fun g' prev' cs' => s.run g' prev' cs' k := rfl

theorem Re.run_rep (p : Char → Bool) (n : Nat) (greedy : Bool) :
    (Re.rep p n greedy).run g prev cs k = repRun p greedy (k g) n prev cs := rfl

theorem Re.run_bol :
    Re.bol.run g prev cs k = if prev = none ∨ prev = some '\n' then k g prev cs else none := rfl

theorem Re.run_cls (p : Char → Bool) (c : Char) (cs : List Char) :
    (Re.cls p).run g prev (c :: cs) k = if p c then k g (some c) cs else none := rfl

theorem Re.run_alt (r s : Re) :
    (Re.alt r s).run g prev cs k = (r.run g prev cs k).or (s.run g prev cs k) := rfl

theorem Re.run_eos : Re.eos.run g prev cs k = if cs = [] then k g prev cs else none := rfl

theorem Re.run_ahead (r : Re) :
    (Re.ahead r).run g prev cs k =
      if (r.run g prev cs fun g' _ cs' => some (g', cs')).isSome then k g prev cs else none := rfl

theorem Re.run_group (r : Re) :
    (Re.group r).run g prev cs k =
      r.run g prev cs fun _ prev' cs' => k (some (cs.take (cs.length - cs'.length))) prev' cs' := rfl

end RunEquations

/-- The match of `r` starting exactly at the cursor. -/
def Re.matchHere (r : Re) (prev : Option Char) (cs : List Char) : Option Res :=
  r.run none prev cs fun g _ cs' => some (g, cs')

/-- A match found in a text: `start()`, `end()` and `group(1)`. -/
structure ReMatch where
  start : Nat
  stop : Nat
  group : Option (List Char)
  deriving DecidableEq, Repr

/-- The leftmost match at or after the cursor, with its offset counted from `i`. -/
def Re.searchAt (r : Re) : Nat → Option Char → List Char → Option (Nat × Res)
  | i, prev, [] => (r.matchHere prev []).map fun m => (i, m)
  | i, prev, c :: cs =>
    match r.matchHere prev (c :: cs) with
    | some m => some (i, m)
    | none => r.searchAt (i + 1) (some c) cs

/-- `re.search(r, text)`. -/
def Re.search (r : Re) (text : List Char) : Option ReMatch :=
  (r.searchAt 0 none text).map fun m => ⟨m.1, text.length - m.2.2.length, m.2.1⟩

/-- Matches from the cursor on, left to right and not overlapping; `skip` counts
the characters of the previous match still to pass over. -/
def Re.findAll (r : Re) : Nat → Nat → Option Char → List Char → List ReMatch
  | _, _, _, [] => []
  | skip + 1, i, _, c :: cs => r.findAll skip (i + 1) (some c) cs
  | 0, i, prev, c :: cs =>
    match r.matchHere prev (c :: cs) with
    | some (g, rest) =>
      ⟨i, i + ((c :: cs).length - rest.length), g⟩ ::
        r.findAll ((c :: cs).length - rest.length - 1) (i + 1) (some c) cs
    | none => r.findAll 0 (i + 1) (some c) cs

/-- `re.finditer(r, text)`. -/
def Re.finditer (r : Re) (text : List Char) : List ReMatch :=
  r.findAll 0 0 none text

/-- Replace each match from the cursor on by `repl`; `skip` as in `findAll`. -/
def Re.subAux (r : Re) (repl : List Char) : Nat → Option Char → List Char → List Char
  | _, _, [] => []
  | skip + 1, _, c :: cs => r.subAux repl skip (some c) cs
  | 0, prev, c :: cs =>
    match r.matchHere prev (c :: cs) with
    | some (_, rest) => repl ++ r.subAux repl ((c :: cs).length - rest.length - 1) (some c) cs
    | none => c :: r.subAux repl 0 (some c) cs

/-- `re.sub(r, repl, text)` for a replacement without a backslash, which Python
inserts as it is; it expands the backslash escapes and group references of any
other, which the scripts never pass (they pass `''` and `'\n'`). -/
def Re.sub (r : Re) (repl text : List Char) : List Char :=
  r.subAux repl 0 none text

/-! ### The cursor -/

/-- The character before the cursor once `x` has been read from a cursor whose
previous character was `prev`. -/
def lastChar (prev : Option Char) (x : List Char) : Option Char :=
  x.getLast?.or prev

@[simp] theorem lastChar_nil (prev : Option Char) : lastChar prev [] = prev := rfl

@[simp] theorem lastChar_cons (prev : Option Char) (c : Char) (x : List Char) :
    lastChar prev (c :: x) = lastChar (some c) x := by
  cases x <;> simp [lastChar, List.getLast?_cons]

@[simp] theorem lastChar_append (prev : Option Char) (x y : List Char) :
    lastChar prev (x ++ y) = lastChar (lastChar prev x) y := by
  simp [lastChar, Option.or_assoc]

@[simp] theorem lastChar_replicate (c : Char) (j : Nat) :
    lastChar (some c) (List.replicate j c) = some c := by
  induction j with
  | zero => rfl
  | succ j ih => rw [List.replicate_succ, lastChar_cons, ih]

/-! ### Soundness: a match reads a prefix of the text -/

theorem repRun_sound {p : Char → Bool} {greedy : Bool} {k : Option Char → List Char → Option Res}
    {res : Res} : ∀ {n prev cs}, repRun p greedy k n prev cs = some res →
      ∃ x rest, cs = x ++ rest ∧ k (lastChar prev x) rest = some res
  | n, prev, [], h => by
    simp only [repRun] at h
    split at h
    · exact ⟨[], [], rfl, h⟩
    · cases h
  | n, prev, c :: cs, h => by
    have more : (if p c then repRun p greedy k (n - 1) (some c) cs else none) = some res →
        ∃ x rest, c :: cs = x ++ rest ∧ k (lastChar prev x) rest = some res := by
      intro hm
      split at hm
      · obtain ⟨x, rest, rfl, hk⟩ := repRun_sound hm
        exact ⟨c :: x, rest, rfl, by simpa using hk⟩
      · cases hm
    have stop : (if n = 0 then k prev (c :: cs) else none) = some res →
        ∃ x rest, c :: cs = x ++ rest ∧ k (lastChar prev x) rest = some res := by
      intro hs
      split at hs
      · exact ⟨[], c :: cs, rfl, hs⟩
      · cases hs
    simp only [repRun] at h
    cases greedy <;> simp only [Bool.false_eq_true, if_false, if_true, Option.or_eq_some] at h
    · rcases h with h | ⟨-, h⟩
      · exact stop h
      · exact more h
    · rcases h with h | ⟨-, h⟩
      · exact more h
      · exact stop h

/-- **A match only moves the cursor forward**, over the text it reads, and hands
its continuation the character read last. -/
theorem Re.run_sound (r : Re) : ∀ {g prev cs k} {res : Res}, r.run g prev cs k = some res →
    ∃ g' x rest, cs = x ++ rest ∧ k g' (lastChar prev x) rest = some res := by
  induction r with
  | eps => intro g prev cs k res h; exact ⟨g, [], cs, rfl, h⟩
  | cls p =>
    intro g prev cs k res h
    cases cs with
    | nil => cases h
    | cons c cs =>
      simp only [Re.run] at h
      split at h
      · exact ⟨g, [c], cs, rfl, h⟩
      · cases h
  | seq r s ihr ihs =>
    intro g prev cs k res h
    obtain ⟨g₁, x₁, rest₁, rfl, h₁⟩ := ihr h
    obtain ⟨g₂, x₂, rest₂, rfl, h₂⟩ := ihs h₁
    exact ⟨g₂, x₁ ++ x₂, rest₂, by simp, by simpa using h₂⟩
  | alt r s ihr ihs =>
    intro g prev cs k res h
    simp only [Re.run, Option.or_eq_some] at h
    rcases h with h | ⟨-, h⟩
    · exact ihr h
    · exact ihs h
  | rep p n greedy =>
    intro g prev cs k res h
    obtain ⟨x, rest, rfl, hk⟩ := repRun_sound h
    exact ⟨g, x, rest, rfl, hk⟩
  | bol | bos | eos | eol | ahead _ _ =>
    intro g prev cs k res h
    simp only [Re.run] at h
    split at h
    · exact ⟨g, [], cs, rfl, h⟩
    · cases h
  | group r ih =>
    intro g prev cs k res h
    obtain ⟨_, x, rest, rfl, hk⟩ := ih h
    exact ⟨_, x, rest, rfl, hk⟩

theorem Re.matchHere_sound {r : Re} {prev : Option Char} {cs : List Char} {g : Option (List Char)}
    {rest : List Char} (h : r.matchHere prev cs = some (g, rest)) : ∃ x, cs = x ++ rest := by
  obtain ⟨_, x, rest', rfl, hk⟩ := r.run_sound h
  cases hk
  exact ⟨x, rfl⟩

/-! ### `re.search` -/

theorem Re.searchAt_of_some {r : Re} {i : Nat} {prev : Option Char} {cs : List Char} {m : Res}
    (h : r.matchHere prev cs = some m) : r.searchAt i prev cs = some (i, m) := by
  cases cs <;> simp [Re.searchAt, h]

theorem Re.searchAt_cons_of_none {r : Re} {i : Nat} {prev : Option Char} {c : Char}
    {cs : List Char} (h : r.matchHere prev (c :: cs) = none) :
    r.searchAt i prev (c :: cs) = r.searchAt (i + 1) (some c) cs := by
  rw [Re.searchAt, h]

/-- `re.search` finds nothing exactly when no cursor of the text starts a match. -/
theorem Re.searchAt_eq_none_iff {r : Re} {i : Nat} {prev : Option Char} {cs : List Char} :
    r.searchAt i prev cs = none ↔
      ∀ x rest, cs = x ++ rest → r.matchHere (lastChar prev x) rest = none := by
  induction cs generalizing i prev with
  | nil => simp [Re.searchAt, List.nil_eq_append_iff]
  | cons c cs ih =>
    rw [Re.searchAt]
    cases hm : r.matchHere prev (c :: cs) with
    | some m => simpa using ⟨[], _, rfl, by simp [hm]⟩
    | none =>
      simp only [ih, List.cons_eq_append_iff]
      constructor
      · rintro h x rest (⟨rfl, rfl⟩ | ⟨x', rfl, rfl⟩)
        · exact hm
        · simpa using h x' rest rfl
      · intro h x rest hx
        simpa using h (c :: x) rest (by simp [hx])

/-- **`re.search` returns the leftmost match**: if the cursor after `x` starts a
match and no earlier cursor does, the search reports that match at offset `|x|`. -/
theorem Re.searchAt_of_first {r : Re} {m : Res} {rest : List Char} :
    ∀ {x : List Char} {i prev cs}, cs = x ++ rest → r.matchHere (lastChar prev x) rest = some m →
      (∀ x' rest', cs = x' ++ rest' → x'.length < x.length →
        r.matchHere (lastChar prev x') rest' = none) →
      r.searchAt i prev cs = some (i + x.length, m)
  | [], i, prev, cs, hcs, hm, _ => by
    subst hcs
    simpa using Re.searchAt_of_some hm
  | c :: x, i, prev, cs, hcs, hm, hfirst => by
    subst hcs
    rw [List.cons_append, Re.searchAt_cons_of_none (by simpa using hfirst [] _ rfl (by simp)),
      Re.searchAt_of_first (x := x) rfl (by simpa using hm)
        (fun x' rest' h hlt => by simpa using hfirst (c :: x') rest' (by simp [h]) (by simpa))]
    simp only [List.length_cons, Nat.add_right_comm, Nat.add_assoc]

theorem Re.searchAt_sound {r : Re} {j : Nat} {m : Res} {i : Nat} {prev : Option Char}
    {cs : List Char} (h : r.searchAt i prev cs = some (j, m)) :
    ∃ x rest, cs = x ++ rest ∧ j = i + x.length ∧ r.matchHere (lastChar prev x) rest = some m := by
  induction cs generalizing i prev with
  | nil =>
    simp only [Re.searchAt, Option.map_eq_some', Prod.mk.injEq] at h
    obtain ⟨m, hm, rfl, rfl⟩ := h
    exact ⟨[], [], rfl, rfl, hm⟩
  | cons c cs ih =>
    rw [Re.searchAt] at h
    cases hm : r.matchHere prev (c :: cs) with
    | some m' =>
      simp only [hm, Option.some.injEq, Prod.mk.injEq] at h
      obtain ⟨rfl, rfl⟩ := h
      exact ⟨[], _, rfl, rfl, hm⟩
    | none =>
      simp only [hm] at h
      obtain ⟨x, rest, rfl, rfl, hx⟩ := ih h
      exact ⟨c :: x, rest, rfl, by simp; omega, by simpa using hx⟩

/-- What `re.search` reports: `start()` and `end()` are the offsets of the text `y`
the match read, and the match of `r` at that cursor left `rest` unread. -/
theorem Re.search_sound {r : Re} {text : List Char} {m : ReMatch} (h : r.search text = some m) :
    ∃ x y rest, text = x ++ y ++ rest ∧ m.start = x.length ∧ m.stop = (x ++ y).length ∧
      r.matchHere (lastChar none x) (y ++ rest) = some (m.group, rest) := by
  simp only [Re.search, Option.map_eq_some'] at h
  obtain ⟨⟨j, g, rest⟩, hs, rfl⟩ := h
  obtain ⟨x, cs, rfl, rfl, hm⟩ := Re.searchAt_sound hs
  obtain ⟨y, rfl⟩ := Re.matchHere_sound hm
  exact ⟨x, y, rest, by simp, by simp, by simp; omega, hm⟩

/-! ### `re.finditer` -/

/-- Every match `finditer` reports starts at a character of the text. -/
theorem Re.findAll_start {r : Re} {m : ReMatch} {skip i : Nat} {prev : Option Char}
    {cs : List Char} (h : m ∈ r.findAll skip i prev cs) : i ≤ m.start ∧ m.start < i + cs.length := by
  induction cs generalizing skip i prev with
  | nil => simp [Re.findAll] at h
  | cons c cs ih =>
    cases skip with
    | succ skip =>
      rw [Re.findAll] at h
      have := ih h
      simp only [List.length_cons]
      omega
    | zero =>
      rw [Re.findAll] at h
      split at h
      · rcases List.mem_cons.mp h with rfl | h
        · simp
        · have := ih h
          simp only [List.length_cons]
          omega
      · have := ih h
        simp only [List.length_cons]
        omega

/-- No match starts among the characters still to be skipped. -/
theorem Re.findAll_skip {r : Re} {m : ReMatch} {skip i : Nat} {prev : Option Char}
    {cs : List Char} (h : m ∈ r.findAll skip i prev cs) : i + skip ≤ m.start := by
  induction cs generalizing skip i prev with
  | nil => simp [Re.findAll] at h
  | cons c cs ih =>
    cases skip with
    | succ skip => rw [Re.findAll] at h; have := ih h; omega
    | zero => exact (Re.findAll_start h).1

/-- Every match `findAll` reports is a match of `r` at its start, over the text up
to its end. -/
theorem Re.findAll_sound {r : Re} {m : ReMatch} {skip i : Nat} {prev : Option Char}
    {cs : List Char} (h : m ∈ r.findAll skip i prev cs) :
    ∃ x y rest, cs = x ++ y ++ rest ∧ m.start = i + x.length ∧ m.stop = i + (x ++ y).length ∧
      r.matchHere (lastChar prev x) (y ++ rest) = some (m.group, rest) := by
  induction cs generalizing skip i prev with
  | nil => simp [Re.findAll] at h
  | cons c cs ih =>
    have later : ∀ {skip'}, m ∈ r.findAll skip' (i + 1) (some c) cs →
        ∃ x y rest, c :: cs = x ++ y ++ rest ∧ m.start = i + x.length ∧
          m.stop = i + (x ++ y).length ∧
          r.matchHere (lastChar prev x) (y ++ rest) = some (m.group, rest) := fun h' => by
      obtain ⟨x, y, rest, rfl, h1, h2, h3⟩ := ih h'
      exact ⟨c :: x, y, rest, rfl, by simp [h1]; omega, by simp [h2]; omega, by simpa using h3⟩
    cases skip with
    | succ skip => rw [Re.findAll] at h; exact later h
    | zero =>
      rw [Re.findAll] at h
      split at h
      · rename_i g rest hm
        rcases List.mem_cons.mp h with rfl | h
        · obtain ⟨y, hy⟩ := Re.matchHere_sound hm
          exact ⟨[], y, rest, by simp [hy], by simp, by simp [hy], by simpa [← hy] using hm⟩
        · exact later h
      · exact later h

/-- Each match ends no later than the next one starts. -/
theorem Re.findAll_pairwise (r : Re) {skip i : Nat} {prev : Option Char} {cs : List Char} :
    (r.findAll skip i prev cs).Pairwise fun a b => a.stop ≤ b.start ∧ a.start < b.start := by
  induction cs generalizing skip i prev with
  | nil => simp [Re.findAll]
  | cons c cs ih =>
    cases skip with
    | succ skip => rw [Re.findAll]; exact ih
    | zero =>
      rw [Re.findAll]
      split
      · refine List.Pairwise.cons (fun b hb => ?_) ih
        have := Re.findAll_skip hb
        dsimp only
        omega
      · exact ih

/-- A match of `r` at a cursor past the characters to skip is reported, unless the
cursor lies inside a match reported before it. -/
theorem Re.findAll_complete {r : Re} {c : Char} {rest : List Char} {res : Res} :
    ∀ {cs : List Char} {skip i : Nat} {prev : Option Char} {x : List Char},
      cs = x ++ c :: rest → skip ≤ x.length → r.matchHere (lastChar prev x) (c :: rest) = some res →
      ∃ m ∈ r.findAll skip i prev cs,
        m.start = i + x.length ∨ (m.start < i + x.length ∧ i + x.length < m.stop)
  | [], _, _, _, x, hcs, _, _ => by cases x <;> cases hcs
  | d :: cs, skip, i, prev, [], hcs, hskip, hm => by
    obtain ⟨rfl, rfl⟩ := List.cons.inj hcs
    obtain rfl : skip = 0 := by simpa using hskip
    rw [lastChar_nil] at hm
    rw [Re.findAll, hm]
    exact ⟨_, List.mem_cons_self _ _, .inl (by simp)⟩
  | d :: cs, skip, i, prev, d' :: x', hcs, hskip, hm => by
    obtain ⟨rfl, hcs'⟩ := List.cons.inj hcs
    rw [lastChar_cons] at hm
    rw [List.length_cons] at hskip ⊢
    cases skip with
    | succ skip =>
      rw [Re.findAll]
      obtain ⟨m, hm, h⟩ := @Re.findAll_complete r c rest res cs skip (i + 1) (some d) x' hcs'
        (by omega) hm
      exact ⟨m, hm, by omega⟩
    | zero =>
      rw [Re.findAll]
      split
      · rename_i g rest0 h0
        by_cases hlt : x'.length + 1 < (d :: cs).length - rest0.length
        · exact ⟨_, List.mem_cons_self _ _, .inr ⟨by simp, by simp only; omega⟩⟩
        · obtain ⟨m, hm, h⟩ := @Re.findAll_complete r c rest res cs
            ((d :: cs).length - rest0.length - 1) (i + 1) (some d) x' hcs' (by omega) hm
          exact ⟨m, List.mem_cons_of_mem _ hm, by omega⟩
      · obtain ⟨m, hm, h⟩ := @Re.findAll_complete r c rest res cs 0 (i + 1) (some d) x' hcs'
          (Nat.zero_le _) hm
        exact ⟨m, hm, by omega⟩

/-- **`re.finditer` reports the matches of `r` left to right, none overlapping the
next.**  Each is a match of `r` at its `start()`, over the text up to its `end()`;
each ends before the next one starts; and a match of `r` at any offset before the
end of the text is reported, unless that offset lies inside a match reported
before it. -/
theorem Re.finditer_spec (r : Re) (text : List Char) :
    (∀ m ∈ r.finditer text, ∃ x y rest, text = x ++ y ++ rest ∧ m.start = x.length ∧
        m.stop = (x ++ y).length ∧ r.matchHere (lastChar none x) (y ++ rest) = some (m.group, rest)) ∧
      (r.finditer text).Pairwise (fun a b => a.stop ≤ b.start ∧ a.start < b.start) ∧
      ∀ x c rest res, text = x ++ c :: rest → r.matchHere (lastChar none x) (c :: rest) = some res →
        ∃ m ∈ r.finditer text, m.start = x.length ∨ (m.start < x.length ∧ x.length < m.stop) :=
  ⟨fun _ hm => by simpa using Re.findAll_sound hm, Re.findAll_pairwise r,
    fun _ _ _ _ h hm => by simpa using Re.findAll_complete (i := 0) h (Nat.zero_le _) hm⟩

/-! ### `re.sub` -/

@[simp] theorem Re.subAux_nil (r : Re) (repl : List Char) (n : Nat) (prev : Option Char) :
    r.subAux repl n prev [] = [] := by
  cases n <;> rfl

theorem Re.subAux_skip {r : Re} {repl : List Char} :
    ∀ (x : List Char) {prev cs}, r.subAux repl x.length prev (x ++ cs) =
      r.subAux repl 0 (lastChar prev x) cs
  | [], _, _ => rfl
  | c :: x, prev, cs => by
    rw [List.length_cons, List.cons_append, Re.subAux, Re.subAux_skip x, lastChar_cons]

theorem Re.subAux_cons_of_none {r : Re} {repl : List Char} {prev : Option Char} {c : Char}
    {cs : List Char} (h : r.matchHere prev (c :: cs) = none) :
    r.subAux repl 0 prev (c :: cs) = c :: r.subAux repl 0 (some c) cs := by
  rw [Re.subAux, h]

/-- A match read from `c :: x` is replaced, and the scan resumes after it. -/
theorem Re.subAux_cons_of_some {r : Re} {repl : List Char} {prev : Option Char} {c : Char}
    {x rest : List Char} {g : Option (List Char)}
    (h : r.matchHere prev (c :: (x ++ rest)) = some (g, rest)) :
    r.subAux repl 0 prev (c :: (x ++ rest)) = repl ++ r.subAux repl 0 (lastChar prev (c :: x)) rest := by
  rw [Re.subAux, h]
  simp only [List.length_cons, List.length_append]
  rw [show x.length + rest.length + 1 - rest.length - 1 = x.length by omega, Re.subAux_skip,
    lastChar_cons]

/-- Where no cursor starts a match, `re.sub` changes nothing. -/
theorem Re.subAux_of_no_match {r : Re} {repl : List Char} {prev : Option Char} {cs : List Char}
    (h : ∀ x rest, cs = x ++ rest → rest ≠ [] → r.matchHere (lastChar prev x) rest = none) :
    r.subAux repl 0 prev cs = cs := by
  induction cs generalizing prev with
  | nil => rfl
  | cons c cs ih =>
    rw [Re.subAux_cons_of_none (by simpa using h [] _ rfl (by simp)),
      ih fun x rest hx hr => by simpa using h (c :: x) rest (by simp [hx]) hr]

/-! ### Literal words -/

theorem Re.run_lit_append {g : Option (List Char)} {k : Option (List Char) → Option Char →
    List Char → Option Res} : ∀ (w : List Char) {prev cs},
    (Re.lit w).run g prev (w ++ cs) k = k g (lastChar prev w) cs
  | [], _, _ => rfl
  | a :: w, prev, cs => by
    simp only [Re.lit, Re.word, Re.run, List.cons_append, beq_self_eq_true, if_true]
    exact (Re.run_lit_append w).trans (by rw [lastChar_cons])

theorem Re.run_lit_sound {g : Option (List Char)} {k : Option (List Char) → Option Char →
    List Char → Option Res} {res : Res} : ∀ (w : List Char) {prev cs},
    (Re.lit w).run g prev cs k = some res → ∃ rest, cs = w ++ rest ∧ k g (lastChar prev w) rest = some res
  | [], _, cs, h => ⟨cs, rfl, h⟩
  | a :: w, prev, cs, h => by
    cases cs with
    | nil => cases h
    | cons c cs =>
      simp only [Re.lit, Re.word, Re.run] at h
      split at h
      · rename_i hc
        obtain ⟨rest, rfl, hk⟩ := Re.run_lit_sound w h
        simp only [beq_iff_eq] at hc
        exact ⟨rest, by simp [hc], by simpa [hc] using hk⟩
      · cases h

/-! ### Greedy repetition -/

/-- A greedy repetition with nothing left to read hands over at once. -/
theorem repRun_greedy_of_head {p : Char → Bool} {k : Option Char → List Char → Option Res}
    {prev : Option Char} {cs : List Char} (h : ∀ d, cs.head? = some d → p d = false) :
    repRun p true k 0 prev cs = k prev cs := by
  cases cs with
  | nil => rfl
  | cons d cs => simp [repRun, h d rfl]

/-- A greedy repetition reads its whole run when the continuation fails before
every character the repetition could still take. -/
theorem repRun_greedy_eq {p : Char → Bool} {k : Option Char → List Char → Option Res}
    (hk : ∀ prev d cs, p d → k prev (d :: cs) = none) :
    ∀ (n : Nat) (prev : Option Char) (cs : List Char), repRun p true k n prev cs =
      if n ≤ (cs.takeWhile p).length then k (lastChar prev (cs.takeWhile p)) (cs.dropWhile p)
      else none
  | n, prev, [] => by simp [repRun]
  | n, prev, d :: cs => by
    by_cases hd : p d
    · simp only [repRun, hd, if_true, repRun_greedy_eq hk (n - 1) (some d) cs,
        List.takeWhile_cons_of_pos hd, List.dropWhile_cons_of_pos hd, List.length_cons,
        lastChar_cons, hk prev d cs hd, ite_self, Option.or_none]
      congr 1
      exact propext (by omega)
    · simp [repRun, hd, List.takeWhile_cons_of_neg, List.dropWhile_cons_of_neg]

/-- A greedy repetition reads its whole run when the continuation succeeds after it. -/
theorem repRun_greedy_of_some {p : Char → Bool} {k : Option Char → List Char → Option Res}
    {res : Res} : ∀ {n : Nat} {prev : Option Char} {cs : List Char},
      n ≤ (cs.takeWhile p).length →
      k (lastChar prev (cs.takeWhile p)) (cs.dropWhile p) = some res →
      repRun p true k n prev cs = some res
  | n, prev, [], hn, h => by simpa [repRun, show n = 0 by simpa using hn] using h
  | n, prev, d :: cs, hn, h => by
    by_cases hd : p d
    · simp only [List.takeWhile_cons_of_pos hd, List.dropWhile_cons_of_pos hd, List.length_cons,
        lastChar_cons] at hn h
      simp [repRun, hd, repRun_greedy_of_some (show n - 1 ≤ _ by omega) h]
    · simp only [List.takeWhile_cons_of_neg hd, List.dropWhile_cons_of_neg hd, List.length_nil,
        Nat.le_zero, lastChar_nil] at hn h
      simp [repRun, hd, hn, h]

/-! ### Words -/

/-- What follows the word `w` at the front of `cs`, letters compared by `eq`. -/
def wordRest (eq : Char → Char → Bool) : List Char → List Char → Option (List Char)
  | [], cs => some cs
  | _ :: _, [] => none
  | a :: w, c :: cs => if eq a c then wordRest eq w cs else none

/-- A word reads exactly its own length. -/
theorem Re.run_word (eq : Char → Char → Bool) {g : Option (List Char)}
    {k : Option (List Char) → Option Char → List Char → Option Res} :
    ∀ (w : List Char) (prev : Option Char) (cs : List Char),
      (Re.word eq w).run g prev cs k =
        (wordRest eq w cs).bind fun rest => k g (lastChar prev (cs.take w.length)) rest
  | [], prev, cs => by simp [Re.word, Re.run, wordRest]
  | _ :: _, _, [] => rfl
  | a :: w, prev, c :: cs => by
    simp only [Re.word, Re.run, wordRest, Re.run_word eq w, List.length_cons, List.take_succ_cons,
      lastChar_cons]
    split <;> rfl

end ReleaseScripts
