import Mathlib.Data.List.TakeWhile
import GoblinCore.Patterns.Glob

/-!
# The MATCH filter of incremental scans

`scan_glob_match` (`command.cpp`) compares a byte of the pattern with the byte of the value before
it asks whether the byte is special, and knows no backslash.  So it follows the glob relation for
every value only when nothing in the pattern is special but question marks.  Stars do no harm as
long as the value has none.
-/

namespace GoblinCore.Patterns

open List LastStar

abbrev exclamation : UInt8 := 33

/-- `a <= b` of two `char`, which are signed or not as the platform has it. -/
def charLe (signedChar : Bool) (a b : UInt8) : Bool :=
  if signedChar then a.toInt8 ≤ b.toInt8 else a ≤ b

/-- The loop over the body of a class. -/
def bodyMatches (signedChar : Bool) (value : UInt8) : Bytes → Bool
  | low :: dash :: high :: rest =>
    if dash = hyphen then
      charLe signedChar low value && charLe signedChar value high ||
        bodyMatches signedChar value rest
    else low == value || bodyMatches signedChar value (dash :: high :: rest)
  | c :: rest => c == value || bodyMatches signedChar value rest
  | [] => false

/-- What one turn of the matcher does at a byte of the value. -/
inductive ScanStep where
  | advance (next : Bytes)
  | star (next : Bytes)
  | refuse
  | back

def scanStep (signedChar : Bool) (value : UInt8) : Bytes → ScanStep
  | [] => .back
  | c :: p =>
    if c = question ∨ c = value then .advance p
    else if c = asterisk then .star p
    else if c = bracket then
      match p.dropWhile (· != closing) with
      | [] => .refuse
      | _ :: next =>
        let body := p.takeWhile (· != closing)
        let negate := body.head? = some caret ∨ body.head? = some exclamation
        if bodyMatches signedChar value (if negate then body.tail else body) = decide negate
        then .back else .advance next
    else .back

variable {signedChar : Bool} {value c : UInt8} {a p q v w next : Bytes}
  {star : Option (Bytes × Bytes)}

theorem scanStep_length (h : scanStep signedChar value p = .advance next ∨
    scanStep signedChar value p = .star next) : next.length < p.length := by
  cases p with
  | nil => simp [scanStep] at h
  | cons c p =>
    have hdrop := (dropWhile_sublist (· != closing) (l := p)).length_le
    grind [scanStep]

def scanLoop (signedChar : Bool) (p v : Bytes) (star : Option (Bytes × Bytes)) : Bool :=
  match v with
  | [] => (p.dropWhile (· == asterisk)).isEmpty
  | value :: rest =>
    match _h : scanStep signedChar value p with
    | .advance next => scanLoop signedChar next rest star
    | .star next => scanLoop signedChar next (value :: rest) (some (next, value :: rest))
    | .refuse => false
    | .back =>
      match star with
      | some (saved, _ :: later) => scanLoop signedChar saved later (some (saved, later))
      | _ => false
termination_by (max p.length (star.elim 0 fun saved ↦ saved.1.length),
  max v.length (star.elim 0 fun saved ↦ saved.2.length), v.length)
decreasing_by
  · have hlt := scanStep_length (.inl _h)
    simp only [Prod.lex_def, length_cons]
    omega
  · have hlt := scanStep_length (.inr _h)
    simp only [Prod.lex_def, Option.elim, length_cons]
    omega
  · simp only [Prod.lex_def, Option.elim, length_cons]
    omega

def scanGlobMatch (signedChar : Bool) (pattern value : Bytes) : Bool :=
  scanLoop signedChar pattern value none

theorem scanLoop_advance (h : scanStep signedChar value p = .advance next) :
    scanLoop signedChar p (value :: v) star = scanLoop signedChar next v star := by
  rw [scanLoop.eq_def]
  simp only
  split <;> simp_all

theorem scanLoop_star (h : scanStep signedChar value p = .star next) :
    scanLoop signedChar p (value :: v) star =
      scanLoop signedChar next (value :: v) (some (next, value :: v)) := by
  rw [scanLoop.eq_def]
  simp only
  split <;> simp_all

theorem scanLoop_back (h : scanStep signedChar value p = .back) (saved : Bytes) :
    scanLoop signedChar p (value :: v) (some (saved, c :: w)) =
      scanLoop signedChar saved w (some (saved, w)) := by
  rw [scanLoop.eq_def]
  simp only
  split <;> simp_all

/-- No star was met that could be taken up again. -/
theorem scanLoop_stuck
    (h : scanStep signedChar value p = .refuse ∨ scanStep signedChar value p = .back)
    (hnone : ∀ saved skipped later, star = some (saved, skipped :: later) → False) :
    scanLoop signedChar p (value :: v) star = false := by
  rw [scanLoop.eq_def]
  simp only
  split <;> simp_all

/-! ## A pattern against its own text -/

theorem scanLoop_append :
    scanLoop signedChar (a ++ p) (a ++ v) none = scanLoop signedChar p v none := by
  induction a with
  | nil => rfl
  | cons c a ih => exact (scanLoop_advance (by simp [scanStep])).trans ih

theorem scanGlobMatch_self : scanGlobMatch signedChar p p = true := by
  rw [scanGlobMatch, ← append_nil p, scanLoop_append, scanLoop]
  rfl

theorem scanGlobMatch_longer (hv : v ≠ []) : scanGlobMatch signedChar p (p ++ v) = false := by
  obtain ⟨value, v, rfl⟩ := exists_cons_of_ne_nil hv
  rw [scanGlobMatch, ← append_nil p, append_assoc, scanLoop_append]
  exact scanLoop_stuck (.inr rfl) (by simp)

/-! ## Patterns without special elements -/

/-- No star, no escaped byte and no class: every byte is an element of its own. -/
def NoneSpecial : Bytes → Prop
  | [] => True
  | c :: p => (∃ value, Element (c :: p) value p) ∧ NoneSpecial p

/-- No star, no backslash but at the end, and no opening bracket that a closing one follows, but
directly. -/
def Bare : Bytes → Prop
  | [] => True
  | c :: p => c ≠ asterisk ∧ (c = backslash → p = []) ∧
      (c = bracket → closing ∉ p ∨ p.head? = some closing) ∧ Bare p

theorem Element.longer_or (h : Element p value next) :
    next.length + 1 < p.length ∨ ∃ c, p = c :: next := by
  cases h with
  | byClass htext => exact .inl (Nat.succ_lt_succ htext.closing_suffix.1.length_le)
  | escaped => exact .inl (by simp)
  | _ => exact .inr ⟨_, rfl⟩

/-- A pattern matches longer values than this one too, or it has no star, and then a value as long
as itself only when nothing in it is special. -/
theorem Glob.longer_or (h : Glob p v) :
    (∀ more, ∃ last, Glob p (v ++ (more ++ last))) ∨
      (v.length ≤ p.length ∧ (v.length = p.length → NoneSpecial p)) := by
  induction h with
  | nil => exact .inr ⟨le_rfl, fun _ ↦ trivial⟩
  | @star p skipped v h _ =>
    refine .inl fun more ↦ ⟨v, ?_⟩
    simpa using (.star h : Glob _ (skipped ++ v ++ more ++ v))
  | @element p c rest v helement _ ih =>
    obtain ih | ⟨hle, hspecial⟩ := ih
    · refine .inl fun more ↦ ?_
      obtain ⟨last, hlast⟩ := ih more
      exact ⟨last, .element helement hlast⟩
    · refine .inr ⟨hle.trans_lt helement.length_lt, fun hlen ↦ ?_⟩
      obtain hlonger | ⟨d, rfl⟩ := helement.longer_or
      · exact absurd hlen (by simp only [length_cons]; omega)
      · exact ⟨⟨c, helement⟩, hspecial (by simpa using hlen)⟩

theorem not_element_asterisk : ¬Element (asterisk :: p) value next := by
  rintro (_ | _ | _ | _ | _ | h)
  simp at h

theorem NoneSpecial.length_eq (h : NoneSpecial p) (hglob : Glob p v) : v.length = p.length := by
  induction hglob with
  | nil => rfl
  | star => exact absurd h.1.choose_spec not_element_asterisk
  | @element p c rest v helement _ ih =>
    cases p with
    | nil => cases helement
    | cons d p =>
      obtain ⟨⟨_, hown⟩, h⟩ := h
      cases helement.next_eq hown
      simp [ih h]

theorem noneSpecial_backslash (h : NoneSpecial (backslash :: p)) : p = [] := by
  obtain ⟨⟨_, h⟩, -⟩ := h
  cases p with
  | nil => rfl
  | cons c p => cases h.next_eq (.escaped)

/-- Without escaped bytes, what stands between two brackets is a class. -/
theorem classItems_of_mem (h : NoneSpecial p) (hmem : closing ∈ p)
    (hhead : p.head? ≠ some closing) : ∃ items rest, ClassItems p items rest := by
  induction hn : p.length using Nat.strong_induction_on generalizing p with
  | _ n ih =>
    subst hn
    have hstep {item q} (hitem : ClassItem p item q) (hq : NoneSpecial q) (hmem : closing ∈ q) :
        ∃ items rest, ClassItems p items rest := by
      by_cases hhead : q.head? = some closing
      · obtain ⟨rest, rfl⟩ := head?_eq_some_iff.mp hhead
        exact ⟨_, _, .last hitem⟩
      · have hlt : q.length < p.length := by
          obtain ⟨token, more, rfl, -, heq⟩ := hitem.classItem_eq 0
          exact Nat.lt_succ_of_le (heq ▸ classItem_suffix token more 0).length_le
        obtain ⟨items, rest, hitems⟩ := ih _ hlt hq hmem hhead rfl
        exact ⟨_, _, .more hitem hitems⟩
    obtain ⟨c, q, rfl⟩ := exists_cons_of_ne_nil (ne_nil_of_mem hmem)
    have hc : c ≠ closing := by simpa using hhead
    replace hmem : closing ∈ q := by simpa [hc.symm] using hmem
    have hback {d : UInt8} {r : Bytes} (hr : NoneSpecial (d :: r)) (hmem : closing ∈ r) :
        d ≠ backslash := by
      rintro rfl
      cases noneSpecial_backslash hr
      cases hmem
    have hbyte : ClassByte (c :: q) c q := .plain (hback h hmem) hc
    by_cases hrange : ∃ last more, q = hyphen :: last :: more ∧ last ≠ closing
    · obtain ⟨last, more, rfl, hlast⟩ := hrange
      replace hmem : closing ∈ more := by grind
      exact hstep (.range hbyte (.plain (hback h.2.2 hmem) hlast)) h.2.2.2 hmem
    · exact hstep (.single hbyte (by grind)) h.2 hmem

theorem Bare.element_iff (h : Bare (c :: p)) :
    Element (c :: p) value next ↔ (c = question ∨ c = value) ∧ next = p := by
  have hclass (hc : c = bracket) negated items rest : ¬ClassText p negated items rest := by
    intro htext
    obtain ⟨hmem, hhead⟩ := htext.closing_suffix
    exact (h.2.2.1 hc).elim (· (hmem.mem mem_cons_self)) hhead
  constructor
  · intro helement
    cases helement with
    | any => exact ⟨.inl rfl, rfl⟩
    | byClass htext => exact absurd htext (hclass rfl _ _ _)
    | escaped => cases h.2.1 rfl
    | _ => exact ⟨.inr rfl, rfl⟩
  · rintro ⟨rfl | rfl, rfl⟩
    · exact .any
    by_cases hquestion : c = question
    · exact hquestion ▸ .any
    by_cases hbracket : c = bracket
    · exact hbracket ▸ .noClass (hclass hbracket)
    by_cases hback : c = backslash
    · cases h.2.1 hback
      exact hback ▸ .lastBackslash
    · exact .literal (by simp [h.1, hquestion, hbracket, hback])

theorem Bare.scanStep_eq (h : Bare (c :: p)) (hc : ¬(c = question ∨ c = value)) :
    scanStep signedChar value (c :: p) = .refuse ∨ scanStep signedChar value (c :: p) = .back := by
  rw [scanStep, if_neg hc, if_neg h.1]
  split
  · rename_i hbracket
    obtain hnone | hhead := h.2.2.1 hbracket
    · have hdrop : p.dropWhile (· != closing) = [] :=
        dropWhile_eq_nil_iff.mpr fun x hx ↦ bne_iff_ne.mpr (ne_of_mem_of_not_mem hx hnone)
      simp [hdrop]
    · obtain ⟨q, rfl⟩ := head?_eq_some_iff.mp hhead
      simp [bodyMatches]
  · exact .inr rfl

theorem Bare.glob_cons_iff (h : Bare (c :: p)) :
    Glob (c :: p) v ↔ ∃ value w, v = value :: w ∧ (c = question ∨ c = value) ∧ Glob p w := by
  constructor
  · intro hglob
    cases hglob with
    | star => exact absurd rfl h.1
    | element helement hrest =>
      obtain ⟨hc, rfl⟩ := h.element_iff.mp helement
      exact ⟨_, _, rfl, hc, hrest⟩
  · rintro ⟨value, w, rfl, hc, hrest⟩
    exact .element (h.element_iff.mpr ⟨hc, rfl⟩) hrest

theorem Bare.scanGlobMatch_iff (h : Bare p) : scanGlobMatch signedChar p v = true ↔ Glob p v := by
  unfold scanGlobMatch
  induction p generalizing v with
  | nil =>
    rw [glob_nil_iff]
    cases v with
    | nil => simp [scanLoop]
    | cons value v =>
      have hstuck : scanLoop signedChar [] (value :: v) none = false :=
        scanLoop_stuck (.inr rfl) (by simp)
      simp [hstuck]
  | cons c p ih =>
    rw [h.glob_cons_iff]
    cases v with
    | nil => simp [scanLoop, h.1]
    | cons value v =>
      by_cases hc : c = question ∨ c = value
      · have hstep : scanStep signedChar value (c :: p) = .advance p := if_pos hc
        simp [scanLoop_advance hstep, ih h.2.2.2, hc]
      · have hstuck : scanLoop signedChar (c :: p) (value :: v) none = false :=
          scanLoop_stuck (h.scanStep_eq hc) (by simp)
        simp [hstuck, hc]

theorem bare_of_agrees
    (h : ∀ v, scanGlobMatch signedChar p v = true ↔ Glob p v) : Bare p := by
  have hself : Glob p p := (h p).mp scanGlobMatch_self
  have hspecial : NoneSpecial p := by
    obtain hlonger | ⟨-, hspecial⟩ := hself.longer_or
    · obtain ⟨last, hglob⟩ := hlonger [0]
      exact absurd ((h _).mpr hglob) (by simp [scanGlobMatch_longer])
    · exact hspecial rfl
  have hsuffix : ∀ a q, p = a ++ q → NoneSpecial q → Bare q := by
    intro a q hp hq
    induction q generalizing a with
    | nil => trivial
    | cons c q ih =>
      refine ⟨?_, ?_, ?_, ih (a ++ [c]) (by simp [hp]) hq.2⟩
      · rintro rfl
        exact not_element_asterisk hq.1.choose_spec
      · rintro rfl
        exact noneSpecial_backslash hq
      · rintro rfl
        by_contra hcon
        obtain ⟨hmem, hhead⟩ := not_or.mp hcon
        rw [not_not] at hmem
        have hclass : ∀ negated items rest, ¬ClassText q negated items rest := by
          obtain ⟨⟨_, hown⟩, -⟩ := hq
          cases hown with
          | byClass htext => exact absurd htext.closing_suffix.1.length_le (Nat.not_succ_le_self _)
          | noClass hnone => exact hnone
          | literal hc => simp at hc
        by_cases hcaret : q.head? = some caret
        · obtain ⟨r, rfl⟩ := head?_eq_some_iff.mp hcaret
          replace hmem : closing ∈ r := by grind
          by_cases hclosing : r.head? = some closing
          · obtain ⟨b, rfl⟩ := head?_eq_some_iff.mp hclosing
            have hscan : scanGlobMatch signedChar p (a ++ 0 :: b) = true := by
              have hstep : scanStep signedChar 0 (bracket :: caret :: closing :: b) =
                .advance b := rfl
              rw [hp, scanGlobMatch, scanLoop_append, scanLoop_advance hstep]
              exact scanGlobMatch_self
            have hlen := hspecial.length_eq ((h _).mp hscan)
            simp [hp] at hlen
          · obtain ⟨items, rest, hitems⟩ := classItems_of_mem hq.2.2 hmem hclosing
            exact hclass _ _ _ (.negated hitems)
        · obtain ⟨items, rest, hitems⟩ := classItems_of_mem hq.2 hmem hhead
          exact hclass _ _ _ (.plain hcaret hitems)
  exact hsuffix [] p rfl hspecial

/-! ## Patterns with stars -/

/-- Nothing but stars, question marks and bytes that stand for themselves. -/
def Simple (pattern : Bytes) : Prop := bracket ∉ pattern ∧ backslash ∉ pattern

/-- What stands at a position of such a pattern. -/
def scanView : Bytes → View Bytes UInt8
  | [] => .done
  | c :: p =>
    if c = asterisk then .star p
    else .one fun value ↦ if c = question ∨ c = value then some p else none

theorem scanView_star (h : scanView p = .star next) : p = asterisk :: next := by
  cases p with
  | nil => cases h
  | cons c p =>
    rw [scanView] at h
    split at h <;> cases h
    simp_all

theorem scanView_one {test : UInt8 → Option Bytes} (h : scanView p = .one test) :
    ∃ c rest, p = c :: rest ∧ c ≠ asterisk ∧
      ∀ value next, test value = some next ↔ (c = question ∨ c = value) ∧ rest = next := by
  cases p with
  | nil => cases h
  | cons c p =>
    rw [scanView] at h
    split at h <;> cases h
    exact ⟨c, p, rfl, ‹_›, fun value next ↦ Option.ite_none_right_eq_some.trans (by simp)⟩

def scanReading : Reading Bytes UInt8 where
  view := scanView
  size := length
  star_lt h := by rw [scanView_star h]; exact Nat.lt_succ_self _
  one_lt h htest := by
    obtain ⟨c, rest, rfl, -, hiff⟩ := scanView_one h
    exact (hiff _ _).mp htest |>.2 ▸ Nat.lt_succ_self _
  one_next h htest hother := by
    obtain ⟨c, rest, rfl, -, hiff⟩ := scanView_one h
    exact ((hiff _ _).mp htest).2.symm.trans ((hiff _ _).mp hother).2

instance (pattern : Bytes) : Decidable (Simple pattern) :=
  inferInstanceAs (Decidable (_ ∧ _))

theorem Simple.tail (h : Simple (c :: p)) : Simple p :=
  ⟨fun hmem ↦ h.1 (mem_cons_of_mem _ hmem), fun hmem ↦ h.2 (mem_cons_of_mem _ hmem)⟩

theorem Simple.element_iff (h : Simple (c :: p)) (hc : c ≠ asterisk) :
    Element (c :: p) value next ↔ (c = question ∨ c = value) ∧ p = next := by
  have hbracket : c ≠ bracket := fun heq ↦ h.1 (heq ▸ mem_cons_self)
  have hback : c ≠ backslash := fun heq ↦ h.2 (heq ▸ mem_cons_self)
  constructor
  · intro helement
    cases helement with
    | any => exact ⟨.inl rfl, rfl⟩
    | literal => exact ⟨.inr rfl, rfl⟩
    | byClass | noClass => exact absurd rfl hbracket
    | escaped | lastBackslash => exact absurd rfl hback
  · rintro ⟨rfl | rfl, rfl⟩
    · exact .any
    by_cases hquestion : c = question
    · exact hquestion ▸ .any
    · exact .literal (by simp [hc, hquestion, hbracket, hback])

theorem Simple.matches_iff_glob (h : Simple p) : scanReading.Matches p v ↔ Glob p v := by
  constructor
  · intro hm
    induction hm with
    | @done p hview =>
      cases p with
      | nil => exact .nil
      | cons c p =>
        simp only [scanReading, scanView] at hview
        split at hview <;> cases hview
    | star hview _ ih =>
      obtain rfl := scanView_star hview
      exact .star (ih h.tail)
    | one hview htest _ ih =>
      obtain ⟨c, rest, rfl, hc, hiff⟩ := scanView_one hview
      have helement := (h.element_iff hc).mpr ((hiff _ _).mp htest)
      exact .element helement (ih (((hiff _ _).mp htest).2 ▸ h.tail))
  · intro hglob
    induction hglob with
    | nil => exact .done rfl
    | star _ ih => exact .star (by simp [scanReading, scanView]) (ih h.tail)
    | @element p value next v helement _ ih =>
      cases p with
      | nil => cases helement
      | cons c p =>
        by_cases hc : c = asterisk
        · exact absurd (hc ▸ helement) not_element_asterisk
        obtain ⟨hvalue, rfl⟩ := (h.element_iff hc).mp helement
        exact .one (if_neg hc) (if_pos hvalue) (ih h.tail)

theorem scanStep_done (h : scanView p = .done) : scanStep signedChar value p = .back := by
  cases p with
  | nil => rfl
  | cons c p =>
    rw [scanView] at h
    split at h <;> cases h

/-- A byte of the value that is no star is compared with what stands in the pattern. -/
theorem scanStep_star (h : scanView p = .star next) (hvalue : value ≠ asterisk) :
    scanStep signedChar value p = .star next := by
  obtain rfl := scanView_star h
  rw [scanStep, if_neg (by simp [hvalue.symm, asterisk, question]), if_pos rfl]

section

variable {test : UInt8 → Option Bytes} (h : scanView p = .one test)
include h

theorem scanStep_passed (htest : test value = some next) :
    scanStep signedChar value p = .advance next := by
  obtain ⟨c, rest, rfl, -, hiff⟩ := scanView_one h
  obtain ⟨hsame, rfl⟩ := (hiff _ _).mp htest
  exact if_pos hsame

theorem scanStep_failed (hp : Simple p) (htest : test value = none) :
    scanStep signedChar value p = .back := by
  obtain ⟨c, rest, rfl, hc, hiff⟩ := scanView_one h
  have hbracket : c ≠ bracket := fun heq ↦ hp.1 (heq ▸ mem_cons_self)
  have hother : ¬(c = question ∨ c = value) := by
    intro hsame
    cases htest.symm.trans ((hiff value rest).mpr ⟨hsame, rfl⟩)
  rw [scanStep, if_neg hother, if_neg hc, if_neg hbracket]

end

theorem finish_scanReading : scanReading.finish p = (p.dropWhile (· == asterisk)).isEmpty := by
  fun_induction Reading.finish scanReading p with
  | case1 p hview =>
    cases p with
    | nil => rfl
    | cons c p =>
      simp only [scanReading, scanView] at hview
      split at hview <;> cases hview
  | case2 p next hview ih =>
    obtain rfl := scanView_star hview
    simpa using ih
  | case3 p test hview =>
    obtain ⟨c, rest, rfl, hc, -⟩ := scanView_one hview
    simp [hc]

/-- On such a pattern and value the loop is the search that goes back to the last star. -/
theorem scanLoop_eq_search (hp : Simple p) (hv : asterisk ∉ v)
    (hstar : ∀ saved ∈ star, Simple saved.1 ∧ asterisk ∉ saved.2) :
    scanLoop signedChar p v star = scanReading.search p v star := by
  fun_induction Reading.search scanReading p v star with
  | case1 p star => rw [scanLoop, finish_scanReading]
  | case2 p star value rest next hview ih =>
    have hnext : Simple next := (scanView_star hview ▸ hp : Simple (asterisk :: next)).tail
    rw [scanLoop_star (scanStep_star hview (by grind))]
    exact ih hnext hv (by simpa using ⟨hnext, by simpa using hv⟩)
  | case3 p star value rest test hview next htest ih =>
    obtain ⟨c, rest', rfl, -, hiff⟩ := scanView_one hview
    rw [scanLoop_advance (scanStep_passed (p := c :: rest') hview htest)]
    exact ih (((hiff _ _).mp htest).2 ▸ hp.tail) (fun hmem ↦ hv (mem_cons_of_mem _ hmem)) hstar
  | case4 p value rest test hview htest saved skipped later ih =>
    obtain ⟨hsaved, hlater⟩ := hstar _ rfl
    have hlater' := fun hmem ↦ hlater (mem_cons_of_mem _ hmem)
    rw [scanLoop_back (scanStep_failed hview hp htest)]
    exact ih hsaved hlater' (by simpa using ⟨hsaved, hlater'⟩)
  | case5 p star value rest test hview htest hnone =>
    exact scanLoop_stuck (.inr (scanStep_failed hview hp htest)) hnone
  | case6 p value rest hview saved skipped later ih =>
    obtain ⟨hsaved, hlater⟩ := hstar _ rfl
    have hlater' := fun hmem ↦ hlater (mem_cons_of_mem _ hmem)
    rw [scanLoop_back (scanStep_done hview)]
    exact ih hsaved hlater' (by simpa using ⟨hsaved, hlater'⟩)
  | case7 p star value rest hview hnone =>
    exact scanLoop_stuck (.inr (scanStep_done hview)) hnone

theorem Simple.scanGlobMatch_iff (h : Simple p) (hv : asterisk ∉ v) :
    scanGlobMatch signedChar p v = true ↔ Glob p v := by
  rw [scanGlobMatch, scanLoop_eq_search h hv (by simp), Reading.search_iff, h.matches_iff_glob]

end GoblinCore.Patterns
