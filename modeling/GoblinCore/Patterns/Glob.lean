import GoblinCore.Foundation.LastStar
import GoblinCore.Store.Keyspace

/-!
# Glob patterns of channel subscriptions

`Glob` says which byte strings a pattern stands for.  Below it is the matcher of the pub/sub
registry (`pubsub.cpp`): `match_one` reads one element of the pattern against one byte,
`glob_match_general` goes back to the last star, and `glob_match` takes a shorter way for patterns
with at most one star and nothing else special.  Positions in a pattern or value are what is left
of it from there on.
-/

namespace GoblinCore.Patterns

open List LastStar

abbrev asterisk : UInt8 := 42
abbrev hyphen : UInt8 := 45
abbrev question : UInt8 := 63
abbrev bracket : UInt8 := 91
abbrev backslash : UInt8 := 92
abbrev closing : UInt8 := 93
abbrev caret : UInt8 := 94

/-! ## What a pattern stands for -/

/-- A byte named in a class: itself, or any byte behind a backslash. -/
inductive ClassByte : Bytes → UInt8 → Bytes → Prop
  | escaped {c rest} : ClassByte (backslash :: c :: rest) c rest
  | plain {c rest} : c ≠ backslash → c ≠ closing → ClassByte (c :: rest) c rest

/-- A member of a class: a range of bytes, or one byte that no range starts with. -/
inductive ClassItem : Bytes → UInt8 × UInt8 → Bytes → Prop
  | range {text low between high rest} : ClassByte text low (hyphen :: between) →
      ClassByte between high rest → ClassItem text (low, high) rest
  | single {text c rest} : ClassByte text c rest →
      (∀ last more, rest = hyphen :: last :: more → last = closing) → ClassItem text (c, c) rest

/-- The members of a class up to its closing bracket, at least one. -/
inductive ClassItems : Bytes → List (UInt8 × UInt8) → Bytes → Prop
  | last {text item rest} : ClassItem text item (closing :: rest) → ClassItems text [item] rest
  | more {text item next items rest} : ClassItem text item next → ClassItems next items rest →
      ClassItems text (item :: items) rest

/-- A class behind its opening bracket: whether it is negated, its members and what follows. -/
inductive ClassText : Bytes → Bool → List (UInt8 × UInt8) → Bytes → Prop
  | plain {text items rest} : text.head? ≠ some caret → ClassItems text items rest →
      ClassText text false items rest
  | negated {text items rest} : ClassItems text items rest →
      ClassText (caret :: text) true items rest

def inItems (items : List (UInt8 × UInt8)) (value : UInt8) : Bool :=
  items.any fun item ↦ item.1 ≤ value && value ≤ item.2

/-- An element of a pattern other than a star, a byte it matches, and what follows it. -/
inductive Element : Bytes → UInt8 → Bytes → Prop
  | any {p c} : Element (question :: p) c p
  | byClass {text negated items p c} : ClassText text negated items p →
      inItems items c ≠ negated → Element (bracket :: text) c p
  | noClass {p} : (∀ negated items rest, ¬ClassText p negated items rest) →
      Element (bracket :: p) bracket p
  | escaped {c p} : Element (backslash :: c :: p) c p
  | lastBackslash : Element [backslash] backslash []
  | literal {c p} : c ∉ [asterisk, question, bracket, backslash] → Element (c :: p) c p

/-- The byte strings that a pattern matches. -/
inductive Glob : Bytes → Bytes → Prop
  | nil : Glob [] []
  | star {p skipped v} : Glob p v → Glob (asterisk :: p) (skipped ++ v)
  | element {p c rest v} : Element p c rest → Glob rest v → Glob p (c :: v)

/-! ## The general matcher -/

/-- The byte meant by one that may be a backslash before another, and what follows. -/
def unescape (c : UInt8) : Bytes → UInt8 × Bytes
  | [] => (c, [])
  | next :: rest => if c = backslash then (next, rest) else (c, next :: rest)

/-- One turn of the loop in `match_class`: whether the member has the value, and what follows. -/
def classItem (c : UInt8) (rest : Bytes) (value : UInt8) : Bool × Bytes :=
  let (first, rest) := unescape c rest
  match rest with
  | dash :: last :: more =>
    if dash = hyphen ∧ last ≠ closing then
      let (last, rest) := unescape last more
      (first ≤ value && value ≤ last, rest)
    else (first == value, dash :: last :: more)
  | rest => (first == value, rest)

theorem unescape_suffix (c : UInt8) (rest : Bytes) : (unescape c rest).2 <:+ rest := by
  cases rest <;> grind [unescape]

theorem classItem_cases (value : UInt8) {token c : UInt8} {more rest : Bytes}
    (h : unescape token more = (c, rest)) :
    (∃ last behind, rest = hyphen :: last :: behind ∧ last ≠ closing ∧
      classItem token more value =
        (c ≤ value && value ≤ (unescape last behind).1, (unescape last behind).2)) ∨
    (∀ last behind, rest = hyphen :: last :: behind → last = closing) ∧
      classItem token more value = (c == value, rest) := by
  unfold classItem
  rw [h]
  grind

theorem classItem_suffix (c : UInt8) (rest : Bytes) (value : UInt8) :
    (classItem c rest value).2 <:+ rest := by
  have hsuffix := unescape_suffix c rest
  have h : unescape c rest = ((unescape c rest).1, (unescape c rest).2) := rfl
  obtain ⟨last, behind, hdash, -, heq⟩ | ⟨-, heq⟩ := classItem_cases value h
  · rw [heq]
    rw [hdash] at hsuffix
    exact (unescape_suffix last behind).trans ((suffix_append [hyphen, last] _).trans hsuffix)
  · exact heq ▸ hsuffix

/-- The loop of `match_class`: `matched`, `any`, and where it stops. -/
def classLoop (value : UInt8) (matched any : Bool) : Bytes → Bool × Bool × Bytes
  | [] => (matched, any, [])
  | c :: rest =>
    if c = closing then (matched, any, c :: rest)
    else
      classLoop value (matched || (classItem c rest value).1) true (classItem c rest value).2
termination_by text => text.length
decreasing_by exact Nat.lt_succ_of_le (classItem_suffix ..).length_le

/-- A valid class behind its bracket, with whether it matches and what follows it. -/
def matchClass (pattern : Bytes) (value : UInt8) : Option (Bool × Bytes) :=
  let negate := pattern.head? = some caret
  match classLoop value false false (if negate then pattern.tail else pattern) with
  | (matched, true, _ :: next) => some (if negate then !matched else matched, next)
  | _ => none

/-- The position behind an element of the pattern that matches the value. -/
def matchOne (pattern : Bytes) (value : UInt8) : Option Bytes :=
  match pattern with
  | [] => none
  | token :: rest =>
    if token = question then some rest
    else
      match (if token = bracket then matchClass rest value else none) with
      | some (isMatch, next) => if isMatch then some next else none
      | none =>
        let (c, next) := unescape token rest
        if c = value then some next else none

/-! ## Classes -/

section Classes

variable {text rest : Bytes} {value low high c : UInt8} {item : UInt8 × UInt8}
  {items : List (UInt8 × UInt8)}

theorem ClassByte.unescape_eq (h : ClassByte text c rest) :
    ∃ token more, text = token :: more ∧ token ≠ closing ∧ unescape token more = (c, rest) := by
  cases h with
  | escaped => exact ⟨_, _, rfl, by decide, by simp [unescape]⟩
  | plain hback hclosing => exact ⟨c, rest, rfl, hclosing, by cases rest <;> simp [unescape, hback]⟩

theorem classByte_of_unescape {token : UInt8} {more : Bytes} (htoken : token ≠ closing)
    (h : unescape token more = (c, rest)) (hrest : rest ≠ []) :
    ClassByte (token :: more) c rest := by
  cases more with
  | nil => simp_all [unescape]
  | cons next more =>
    by_cases hback : token = backslash
    · simp only [unescape, if_pos hback, Prod.mk.injEq] at h
      exact h.1 ▸ h.2 ▸ hback ▸ .escaped
    · simp only [unescape, if_neg hback, Prod.mk.injEq] at h
      exact h.1 ▸ h.2 ▸ .plain hback htoken

theorem ClassItem.classItem_eq (h : ClassItem text item rest) (value : UInt8) :
    ∃ token more, text = token :: more ∧ token ≠ closing ∧
      classItem token more value = (item.1 ≤ value && value ≤ item.2, rest) := by
  cases h with
  | range hlow hhigh =>
    obtain ⟨token, more, rfl, htoken, heq⟩ := hlow.unescape_eq
    obtain ⟨last, behind, rfl, hlast, heq'⟩ := hhigh.unescape_eq
    exact ⟨token, more, rfl, htoken, by simp [classItem, heq, heq', hlast]⟩
  | single hbyte hnone =>
    obtain ⟨token, more, rfl, htoken, heq⟩ := hbyte.unescape_eq
    refine ⟨token, more, rfl, htoken, ?_⟩
    obtain ⟨last, behind, hdash, hlast, -⟩ | ⟨-, hitem⟩ := classItem_cases value heq
    · exact absurd (hnone last behind hdash) hlast
    · rw [hitem, ← Bool.decide_and, Prod.mk.injEq]
      exact ⟨by grind, rfl⟩

theorem classItem_item {token : UInt8} {more : Bytes} (htoken : token ≠ closing)
    (hrest : (classItem token more value).2 ≠ []) :
    ∃ item, ClassItem (token :: more) item (classItem token more value).2 := by
  have h : unescape token more = (_, _) := rfl
  obtain ⟨last, behind, hdash, hlast, hitem⟩ | ⟨hnone, hitem⟩ := classItem_cases value h
  · rw [hitem] at hrest ⊢
    exact ⟨_, .range (classByte_of_unescape htoken (hdash ▸ h) (by simp))
      (classByte_of_unescape hlast rfl hrest)⟩
  · rw [hitem] at hrest ⊢
    exact ⟨_, .single (classByte_of_unescape htoken h hrest) hnone⟩

theorem ClassItems.classLoop_eq (h : ClassItems text items rest) (matched any : Bool) :
    classLoop value matched any text = (matched || inItems items value, true, closing :: rest) := by
  induction h generalizing matched any with
  | last hitem =>
    obtain ⟨token, more, rfl, htoken, heq⟩ := hitem.classItem_eq value
    simp [classLoop, htoken, heq, inItems]
  | more hitem _ ih =>
    obtain ⟨token, more, rfl, htoken, heq⟩ := hitem.classItem_eq value
    rw [classLoop, if_neg htoken, heq, ih]
    simp [inItems, Bool.or_assoc]

theorem classItems_of_classLoop {matched any isMatch : Bool} {stop : UInt8}
    (h : classLoop value matched any text = (isMatch, true, stop :: rest)) :
    (any = true ∧ text = closing :: rest) ∨ ∃ items, ClassItems text items rest := by
  fun_induction classLoop value matched any text with
  | case1 => simp at h
  | case2 matched any rest => simp_all
  | case3 matched any c more hc ih =>
    have hrest : (classItem c more value).2 ≠ [] := by
      intro hnil
      rw [hnil] at h
      simp [classLoop] at h
    obtain ⟨item, hitem⟩ := classItem_item hc hrest
    obtain ⟨-, hstop⟩ | ⟨items, hitems⟩ := ih h
    · exact .inr ⟨_, .last (hstop ▸ hitem)⟩
    · exact .inr ⟨_, .more hitem hitems⟩

theorem ClassItems.closing_suffix (h : ClassItems text items rest) :
    closing :: rest <:+ text ∧ text.head? ≠ some closing := by
  induction h with
  | last hitem =>
    obtain ⟨token, more, rfl, htoken, heq⟩ := hitem.classItem_eq 0
    have hrest := heq ▸ classItem_suffix token more 0
    exact ⟨hrest.trans (suffix_cons token more), by simpa using htoken⟩
  | more hitem _ ih =>
    obtain ⟨token, more, rfl, htoken, heq⟩ := hitem.classItem_eq 0
    have hnext := heq ▸ classItem_suffix token more 0
    exact ⟨ih.1.trans (hnext.trans (suffix_cons token more)), by simpa using htoken⟩

theorem ClassText.closing_suffix {negated : Bool} (h : ClassText text negated items rest) :
    closing :: rest <:+ text ∧ text.head? ≠ some closing := by
  cases h with
  | plain _ hitems => exact hitems.closing_suffix
  | negated hitems => exact
    ⟨hitems.closing_suffix.1.trans (suffix_cons ..), by simp [caret, closing]⟩

theorem matchClass_eq (value : UInt8) {negated : Bool} (h : ClassText text negated items rest) :
    matchClass text value = some (inItems items value != negated, rest) := by
  cases h with
  | plain hhead hitems => simp [matchClass, hhead, hitems.classLoop_eq]
  | negated hitems => simp [matchClass, hitems.classLoop_eq]

theorem classText_of_matchClass {isMatch : Bool} (h : matchClass text value =
    some (isMatch, rest)) :
    ∃ negated items, ClassText text negated items rest := by
  simp only [matchClass] at h
  split at h
  · rename_i matched stop next hloop
    obtain ⟨hany, -⟩ | ⟨items, hitems⟩ := classItems_of_classLoop hloop
    · cases hany
    · obtain rfl : next = rest := by simp_all
      by_cases hhead : text.head? = some caret
      · obtain ⟨more, rfl⟩ := List.head?_eq_some_iff.mp hhead
        exact ⟨true, items, .negated (by simpa using hitems)⟩
      · exact ⟨false, items, .plain hhead (by simpa [hhead] using hitems)⟩
  · cases h

end Classes

/-! ## Elements and stars -/

section Elements

variable {pattern text rest next last p v : Bytes} {value token c d : UInt8}

theorem Element.length_lt (h : Element pattern c rest) : rest.length < pattern.length := by
  cases h with
  | byClass htext => exact Nat.lt_succ_of_lt htext.closing_suffix.1.length_le
  | _ => grind

theorem Element.next_eq (h : Element pattern c next) (h' : Element pattern d last) :
    next = last := by
  cases h with
  | byClass htext _ =>
    cases h' with
    | byClass htext' _ =>
      have heq := matchClass_eq 0 htext
      rw [matchClass_eq 0 htext'] at heq
      simp_all
    | noClass hnone => exact absurd htext (hnone _ _ _)
    | literal h => simp at h
  | noClass hnone =>
    cases h' with
    | byClass htext _ => exact absurd htext (hnone _ _ _)
    | _ => rfl
  | _ => cases h' <;> simp_all

theorem matchOne_class {negated : Bool} {items : List (UInt8 × UInt8)}
    (h : ClassText text negated items rest) :
    matchOne (bracket :: text) c = if inItems items c != negated then some rest else none := by
  rw [matchOne, if_neg (by decide), if_pos rfl, matchClass_eq c h]

theorem matchOne_noClass (h : ∀ negated items rest, ¬ClassText text negated items rest) :
    matchOne (bracket :: text) c = if bracket = c then some text else none := by
  have hnone : matchClass text c = none := by
    rw [Option.eq_none_iff_forall_not_mem]
    rintro ⟨isMatch, rest⟩ hsome
    obtain ⟨negated, items, htext⟩ := classText_of_matchClass hsome
    exact h negated items rest htext
  rw [matchOne, if_neg (by decide), if_pos rfl, hnone]
  cases text <;> rfl

theorem matchOne_other (hquestion : token ≠ question) (hbracket : token ≠ bracket) :
    matchOne (token :: rest) c =
      if (unescape token rest).1 = c then some (unescape token rest).2 else none := by
  rw [matchOne, if_neg hquestion, if_neg hbracket]

theorem Element.matchOne_eq (h : Element pattern c next) : matchOne pattern c = some next := by
  cases h with
  | any => rw [matchOne, if_pos rfl]
  | byClass htext hin => simp [matchOne_class htext, hin]
  | noClass hnone => rw [matchOne_noClass hnone, if_pos rfl]
  | escaped => rw [matchOne_other (by decide) (by decide), unescape, if_pos rfl, if_pos rfl]
  | lastBackslash => rw [matchOne_other (by decide) (by decide), unescape, if_pos rfl]
  | literal hc =>
    simp only [mem_cons, not_or] at hc
    rw [matchOne_other hc.2.1 hc.2.2.1]
    cases next <;> simp [unescape, hc.2.2.2.1]

theorem matchOne_iff (htoken : token ≠ asterisk) :
    matchOne (token :: rest) c = some next ↔ Element (token :: rest) c next := by
  refine ⟨fun h ↦ ?_, Element.matchOne_eq⟩
  by_cases hquestion : token = question
  · subst hquestion
    rw [matchOne, if_pos rfl] at h
    exact Option.some.inj h ▸ .any
  by_cases hbracket : token = bracket
  · subst hbracket
    by_cases hclass : ∃ negated items next, ClassText rest negated items next
    · obtain ⟨negated, items, behind, htext⟩ := hclass
      rw [matchOne_class htext] at h
      obtain ⟨hin, heq⟩ := Option.ite_none_right_eq_some.mp h
      exact Option.some.inj heq ▸ .byClass htext (bne_iff_ne.mp hin)
    · simp only [not_exists] at hclass
      rw [matchOne_noClass hclass] at h
      obtain ⟨rfl, heq⟩ := Option.ite_none_right_eq_some.mp h
      exact Option.some.inj heq ▸ .noClass hclass
  · rw [matchOne_other hquestion hbracket] at h
    cases rest <;> grind [unescape, Element]

/-- What stands at a position of a pattern: `glob_match_general` skips stars in a row. -/
def view : Bytes → View Bytes UInt8
  | [] => .done
  | token :: rest =>
    if token = asterisk then .star (rest.dropWhile (· == asterisk))
    else .one (matchOne (token :: rest))

theorem view_star (h : view pattern = .star next) :
    ∃ rest, pattern = asterisk :: rest ∧ next = rest.dropWhile (· == asterisk) := by
  cases pattern with
  | nil => cases h
  | cons token rest =>
    simp only [view] at h
    split at h <;> cases h
    exact ⟨rest, by simp_all, rfl⟩

theorem view_one {test : UInt8 → Option Bytes} (h : view pattern = .one test) :
    test c = some next ↔ Element pattern c next := by
  cases pattern with
  | nil => cases h
  | cons token rest =>
    simp only [view] at h
    split at h <;> cases h
    exact matchOne_iff ‹_›

def reading : Reading Bytes UInt8 where
  view := view
  size := length
  star_lt h := by
    obtain ⟨rest, rfl, rfl⟩ := view_star h
    exact Nat.lt_succ_of_le (dropWhile_sublist _ |>.length_le)
  one_lt h htest := ((view_one h).mp htest).length_lt
  one_next h htest hother := ((view_one h).mp htest).next_eq ((view_one h).mp hother)

def globMatchGeneral (pattern value : Bytes) : Bool := reading.search pattern value none

theorem glob_star_iff : Glob (asterisk :: p) v ↔ ∃ rest, rest <:+ v ∧ Glob p rest := by
  constructor
  · intro h
    cases h with
    | star h => exact ⟨_, suffix_append .., h⟩
    | element h => cases h with | literal h => simp at h
  · rintro ⟨rest, ⟨skipped, rfl⟩, h⟩
    exact .star h

theorem glob_skipStars_iff : Glob (asterisk :: p) v ↔
    ∃ rest, rest <:+ v ∧ Glob (p.dropWhile (· == asterisk)) rest := by
  induction p generalizing v with
  | nil => exact glob_star_iff
  | cons token p ih =>
    by_cases htoken : token = asterisk
    · subst htoken
      rw [glob_star_iff]
      simp only [ih]
      constructor
      · rintro ⟨rest, hrest, last, hlast, h⟩
        exact ⟨last, hlast.trans hrest, by simpa using h⟩
      · rintro ⟨rest, hrest, h⟩
        exact ⟨rest, hrest, rest, suffix_rfl, by simpa using h⟩
    · rw [glob_star_iff]
      simp [htoken]

theorem glob_nil_iff : Glob [] v ↔ v = [] := by
  constructor
  · intro h
    cases h with
    | nil => rfl
    | element h => cases h
  · rintro rfl
    exact .nil

theorem Element.view_eq (h : Element pattern c next) : view pattern = .one (matchOne pattern) := by
  cases h with
  | literal hc => rw [view, if_neg (by simp_all)]
  | _ => rw [view, if_neg (by decide)]

theorem matches_star_iff : reading.Matches (asterisk :: p) v ↔
    ∃ rest, rest <:+ v ∧ reading.Matches (p.dropWhile (· == asterisk)) rest :=
  Reading.matches_star (by simp [reading, view])

theorem matches_skipStars (h : reading.Matches p v) :
    ∃ rest, rest <:+ v ∧ reading.Matches (p.dropWhile (· == asterisk)) rest := by
  cases p with
  | nil => exact ⟨v, suffix_rfl, h⟩
  | cons token p =>
    by_cases htoken : token = asterisk
    · subst htoken
      simpa using matches_star_iff.mp h
    · exact ⟨v, suffix_rfl, by simpa [htoken] using h⟩

theorem matches_iff_glob : reading.Matches pattern v ↔ Glob pattern v := by
  constructor
  · intro h
    induction h with
    | @done p hview =>
      cases p with
      | nil => exact .nil
      | cons token rest =>
        simp only [reading, view] at hview
        split at hview <;> cases hview
    | star hview _ ih =>
      obtain ⟨rest, rfl, rfl⟩ := view_star hview
      exact glob_skipStars_iff.mpr ⟨_, suffix_append .., ih⟩
    | one hview htest _ ih => exact .element ((view_one hview).mp htest) ih
  · intro h
    induction h with
    | nil => exact .done rfl
    | star _ ih =>
      obtain ⟨rest, hrest, hm⟩ := matches_skipStars ih
      exact matches_star_iff.mpr ⟨rest, hrest.trans (suffix_append ..), hm⟩
    | element helement _ ih => exact .one helement.view_eq helement.matchOne_eq ih

theorem globMatchGeneral_iff : globMatchGeneral pattern v = true ↔ Glob pattern v :=
  Reading.search_iff.trans matches_iff_glob

end Elements

/-! ## Patterns with at most one star -/

inductive PatternKind where
  | always
  | literal
  | prefixed
  | suffixed
  | prefixSuffix
  | general

/-- The loop of `classify_pattern` from a position on: the number of stars and the last one's
place, unless the pattern needs the general matcher. -/
def classifyLoop (i starCount starPos : ℕ) : Bytes → Option (ℕ × ℕ)
  | [] => some (starCount, starPos)
  | c :: rest =>
    if c = backslash ∨ c = question ∨ c = bracket then none
    else if c = asterisk then
      if 1 < starCount + 1 then none else classifyLoop (i + 1) (starCount + 1) i rest
    else classifyLoop (i + 1) starCount starPos rest

def classifyPattern (pattern : Bytes) : PatternKind :=
  if pattern = [asterisk] then .always
  else
    match classifyLoop 0 0 0 pattern with
    | none => .general
    | some (starCount, starPos) =>
      if starCount = 0 then .literal
      else if starPos = pattern.length - 1 then .prefixed
      else if starPos = 0 then .suffixed
      else .prefixSuffix

def hasPrefix (value text : Bytes) : Bool :=
  text.length ≤ value.length && value.take text.length == text

def hasSuffix (value text : Bytes) : Bool :=
  text.length ≤ value.length && value.drop (value.length - text.length) == text

def matchClassified (kind : PatternKind) (pattern value : Bytes) : Bool :=
  match kind with
  | .always => true
  | .literal => pattern == value
  | .prefixed => hasPrefix value (pattern.take (pattern.length - 1))
  | .suffixed => hasSuffix value (pattern.drop 1)
  | .prefixSuffix =>
    let star := pattern.idxOf asterisk
    let first := pattern.take star
    let last := pattern.drop (star + 1)
    !(value.length < first.length + last.length) && hasPrefix value first && hasSuffix value last
  | .general => globMatchGeneral pattern value

def globMatch (pattern value : Bytes) : Bool :=
  matchClassified (classifyPattern pattern) pattern value

/-- Every byte of a text matches only itself in a pattern. -/
def Plain (text : Bytes) : Prop := ∀ c ∈ text, c ∉ [asterisk, question, bracket, backslash]

section Classified

variable {pattern a b p v rest : Bytes} {i starCount starPos n k : ℕ}

theorem classifyLoop_some (h : classifyLoop i starCount starPos rest = some (n, k)) :
    (Plain rest ∧ n = starCount ∧ k = starPos) ∨
    ∃ a b, rest = a ++ asterisk :: b ∧ Plain a ∧ Plain b ∧ starCount = 0 ∧ n = 1 ∧
      k = i + a.length := by
  induction rest generalizing i starCount starPos with
  | nil =>
    cases h
    exact .inl ⟨forall_mem_nil _, rfl, rfl⟩
  | cons c rest ih =>
    simp only [classifyLoop] at h
    split at h
    · cases h
    rename_i hc
    split at h
    · rename_i hstar
      split at h
      · cases h
      rename_i hcount
      obtain ⟨hrest, hn, hk⟩ | ⟨-, -, -, -, -, hzero, -⟩ := ih h
      · exact .inr ⟨[], rest, by simp [hstar], forall_mem_nil _, hrest, by omega, by omega, hk⟩
      · cases hzero
    · rename_i hstar
      have hplain : c ∉ [asterisk, question, bracket, backslash] := by simp_all
      obtain ⟨hrest, hn, hk⟩ | ⟨a, b, rfl, ha, hb, hzero, hn, hk⟩ := ih h
      · exact .inl ⟨forall_mem_cons.mpr ⟨hplain, hrest⟩, hn, hk⟩
      · exact .inr ⟨c :: a, b, rfl, forall_mem_cons.mpr ⟨hplain, ha⟩, hb, hzero, hn, by grind⟩

theorem glob_literal_iff {c : UInt8} (hc : c ∉ [asterisk, question, bracket, backslash]) :
    Glob (c :: p) v ↔ ∃ w, v = c :: w ∧ Glob p w := by
  constructor
  · intro h
    cases h with
    | star h => simp at hc
    | element helement hrest =>
      cases helement with
      | literal _ => exact ⟨_, rfl, hrest⟩
      | _ => simp at hc
  · rintro ⟨w, rfl, hw⟩
    exact .element (.literal hc) hw

theorem glob_plain_append_iff (ha : Plain a) :
    Glob (a ++ p) v ↔ ∃ w, v = a ++ w ∧ Glob p w := by
  induction a generalizing v with
  | nil => simp
  | cons c a ih =>
    obtain ⟨hc, ha⟩ := forall_mem_cons.mp ha
    simp only [cons_append, glob_literal_iff hc, ih ha]
    constructor
    · rintro ⟨_, rfl, w, rfl, hw⟩
      exact ⟨w, rfl, hw⟩
    · rintro ⟨w, rfl, hw⟩
      exact ⟨_, rfl, w, rfl, hw⟩

theorem glob_plain_iff (ha : Plain a) : Glob a v ↔ a = v := by
  rw [← append_nil a, glob_plain_append_iff ha]
  simp [glob_nil_iff, eq_comm]

theorem glob_oneStar_iff (ha : Plain a) (hb : Plain b) :
    Glob (a ++ asterisk :: b) v ↔ a.length + b.length ≤ v.length ∧ a <+: v ∧ b <:+ v := by
  simp only [glob_plain_append_iff ha, glob_star_iff, glob_plain_iff hb]
  constructor
  · rintro ⟨_, rfl, _, ⟨w, rfl⟩, rfl⟩
    exact ⟨by simp, prefix_append .., ⟨a ++ w, by simp⟩⟩
  · rintro ⟨hlen, ⟨w, rfl⟩, hsuffix⟩
    refine ⟨w, rfl, b, ?_, rfl⟩
    exact suffix_of_suffix_length_le hsuffix (suffix_append ..) (by simp at hlen; omega)

theorem hasPrefix_iff : hasPrefix v a = true ↔ a <+: v := by
  simp only [hasPrefix, Bool.and_eq_true, decide_eq_true_eq, beq_iff_eq]
  exact ⟨fun h ↦ h.2 ▸ take_prefix .., fun h ↦ ⟨h.length_le, (prefix_iff_eq_take.mp h).symm⟩⟩

theorem hasSuffix_iff : hasSuffix v b = true ↔ b <:+ v := by
  simp only [hasSuffix, Bool.and_eq_true, decide_eq_true_eq, beq_iff_eq]
  exact ⟨fun h ↦ h.2 ▸ drop_suffix .., fun h ↦ ⟨h.length_le, (suffix_iff_eq_drop.mp h).symm⟩⟩

theorem globMatch_iff : globMatch pattern v = true ↔ Glob pattern v := by
  unfold globMatch classifyPattern
  split
  · rename_i hpattern
    exact iff_of_true rfl (hpattern ▸ glob_star_iff.mpr ⟨[], nil_suffix, .nil⟩)
  split
  · exact globMatchGeneral_iff
  · rename_i n k hloop
    obtain ⟨hplain, rfl, rfl⟩ | ⟨a, b, rfl, ha, hb, -, rfl, rfl⟩ := classifyLoop_some hloop
    · simp [matchClassified, glob_plain_iff hplain]
    · have hstar : (a ++ asterisk :: b).idxOf asterisk = a.length := by
        rw [idxOf_append_of_notMem fun h ↦ ha _ h (by simp), idxOf_cons_self, Nat.add_zero]
      rw [if_neg Nat.one_ne_zero, glob_oneStar_iff ha hb]
      split
      · obtain rfl : b = [] := by simp_all
        simpa [matchClassified, hasPrefix_iff] using IsPrefix.length_le
      split
      · obtain rfl : a = [] := by simp_all
        simpa [matchClassified, hasSuffix_iff] using IsSuffix.length_le
      · simp [matchClassified, hasPrefix_iff, hasSuffix_iff, hstar, and_assoc]

end Classified

/-- The six fast paths and the general matcher give the same answer, that of the relation. -/
theorem globMatch_eq_general_iff_glob (pattern value : Bytes) :
    globMatch pattern value = globMatchGeneral pattern value ∧
      (globMatchGeneral pattern value = true ↔ Glob pattern value) :=
  ⟨Bool.eq_iff_iff.mpr (globMatch_iff.trans globMatchGeneral_iff.symm), globMatchGeneral_iff⟩

end GoblinCore.Patterns
