import Mathlib.Algebra.Order.Ring.Nat
import Mathlib.Tactic.Common
import Mathlib.Data.List.Infix
import Mathlib.Data.List.TakeWhile

/-!
# Strings of Python

The functions on strings that a parser by searching uses, on lists of characters: the split at the
first place of a separator, the split at all places of one of two characters, and the removal of
white space. What a split finds in a string it also finds in a longer one.
-/

namespace PyStr

variable {sep s t a b : List Char} {x y c : Char}

/-- `s.split (sep, 1)`, where the separator occurs. -/
def splitOnce (sep : List Char) : List Char → Option (List Char × List Char)
  | [] => if sep = [] then some ([], []) else none
  | c :: s =>
    if sep.isPrefixOf (c :: s) then some ([], (c :: s).drop sep.length)
    else (splitOnce sep s).map fun p => (c :: p.1, p.2)

/-- `sep in s`. -/
def contains (sep s : List Char) : Bool := (splitOnce sep s).isSome

/-- The parts of a string, with a character in front of the first one. -/
def consHead (c : Char) : List (List Char) → List (List Char)
  | [] => [[c]]
  | p :: ps => (c :: p) :: ps

/-- `s.split (xy)` for a separator of two characters. -/
def splitPair (x y : Char) : List Char → List (List Char)
  | a :: b :: s =>
    if a = x ∧ b = y then [] :: splitPair x y s else consHead a (splitPair x y (b :: s))
  | s => [s]

def isSpace (c : Char) : Bool :=
  c = ' ' || c = '\t' || c = '\n' || c = '\r' || c = '\x0b' || c = '\x0c'

/-- `s.strip ()`. -/
def strip (s : List Char) : List Char := ((s.dropWhile isSpace).reverse.dropWhile isSpace).reverse

/-- The number of a string of digits. -/
def digitsValue (s : List Char) : Option Nat :=
  if s ≠ [] ∧ s.all Char.isDigit then some (Nat.ofDigitChars 10 s 0) else none

/-- `int (s)`. -/
def toInt (s : List Char) : Option Int :=
  match strip s with
  | '-' :: ds => (digitsValue ds).map fun n => -n
  | '+' :: ds => (digitsValue ds).map fun n => n
  | ds => (digitsValue ds).map fun n => n

/-- `sep.join (ps)`. -/
def join (sep : List Char) : List (List Char) → List Char
  | [] => []
  | [p] => p
  | p :: ps => p ++ sep ++ join sep ps

/-! ## Splitting -/

theorem splitOnce_some (h : splitOnce sep s = some (a, b)) : s = a ++ sep ++ b := by
  induction s generalizing a with
  | nil =>
    rw [splitOnce] at h
    split at h
    · next hsep =>
      cases h
      rw [hsep]
      rfl
    · cases h
  | cons c s ih =>
    rw [splitOnce] at h
    split at h
    · next hpre =>
      obtain ⟨r, hr⟩ := List.isPrefixOf_iff_prefix.mp hpre
      cases h
      rw [← hr, List.drop_left]
      rfl
    · obtain ⟨p, hp, hq⟩ := Option.map_eq_some_iff.mp h
      cases hq
      rw [ih hp]
      rfl

/-- A split is found at the same place in a longer string. -/
theorem splitOnce_append (h : splitOnce sep s = some (a, b)) (t : List Char) :
    splitOnce sep (s ++ t) = some (a, b ++ t) := by
  induction s generalizing a with
  | nil =>
    rw [splitOnce] at h
    split at h
    · next hsep =>
      cases h
      rw [hsep]
      cases t <;> rfl
    · cases h
  | cons c s ih =>
    have hs := splitOnce_some h
    rw [splitOnce] at h
    rw [List.cons_append, splitOnce]
    split at h
    · next hpre =>
      obtain ⟨r, hr⟩ := List.isPrefixOf_iff_prefix.mp hpre
      have hlong : sep.isPrefixOf (c :: (s ++ t)) = true := by
        rw [List.isPrefixOf_iff_prefix, ← List.cons_append, ← hr, List.append_assoc]
        exact List.prefix_append _ _
      cases h
      rw [if_pos hlong, ← List.cons_append, ← hr, List.append_assoc, List.drop_left, List.drop_left]
    · next hpre =>
      obtain ⟨p, hp, hq⟩ := Option.map_eq_some_iff.mp h
      cases hq
      have hlen : sep.length ≤ (c :: s).length := by
        have heq := congrArg List.length (splitOnce_some hp)
        simp only [List.length_append, List.length_cons] at heq ⊢
        omega
      have hshort : ¬sep.isPrefixOf (c :: (s ++ t)) = true := by
        rw [List.isPrefixOf_iff_prefix, ← List.cons_append]
        rw [List.isPrefixOf_iff_prefix] at hpre
        exact fun hlong => hpre (List.prefix_of_prefix_length_le hlong (List.prefix_append _ _) hlen)
      rw [if_neg hshort, ih hp]
      rfl

/-- The place of a separator that does not begin before. -/
theorem splitOnce_head (h : c ∉ a) : splitOnce (c :: s) (a ++ (c :: s ++ b)) = some (a, b) := by
  induction a with
  | nil =>
    have hpre : (c :: s).isPrefixOf (c :: (s ++ b)) = true := by
      rw [List.isPrefixOf_iff_prefix]
      exact List.prefix_append (c :: s) b
    rw [List.nil_append, List.cons_append, splitOnce, if_pos hpre, ← List.cons_append,
      List.drop_left]
  | cons d a ih =>
    rw [List.mem_cons, not_or] at h
    have hpre : ¬(c :: s).isPrefixOf (d :: (a ++ (c :: s ++ b))) = true := by
      rw [List.isPrefixOf_iff_prefix, List.cons_prefix_cons]
      exact fun hd => h.1 hd.1
    rw [List.cons_append, splitOnce, if_neg hpre, ih h.2]
    rfl

/-- The place of a separator of two characters that the string before does not have. -/
theorem splitOnce_pair (hxy : x ≠ y) (h : splitOnce [x, y] a = none) :
    splitOnce [x, y] (a ++ x :: y :: b) = some (a, b) := by
  induction a with
  | nil => simp [splitOnce]
  | cons d a ih =>
    rw [splitOnce] at h
    split at h
    · cases h
    · next hpre =>
      have hlong : ¬[x, y].isPrefixOf (d :: (a ++ x :: y :: b)) = true := by
        cases a with
        | nil => simp [hxy.symm]
        | cons e a => simpa using hpre
      rw [List.cons_append, splitOnce, if_neg hlong, ih (Option.map_eq_none_iff.mp h)]
      rfl

/-- A string without one of the characters of the separator. -/
theorem splitOnce_none (hc : c ∈ sep) (h : c ∉ a) : splitOnce sep a = none := by
  cases hs : splitOnce sep a with
  | none => rfl
  | some p =>
    rw [splitOnce_some hs] at h
    exact absurd (List.mem_append_left _ (List.mem_append_right _ hc)) h

theorem exists_splitOnce (h : sep <:+: s) : ∃ p, splitOnce sep s = some p := by
  induction s with
  | nil =>
    rw [List.infix_nil.mp h]
    exact ⟨_, rfl⟩
  | cons c s ih =>
    rw [splitOnce]
    split
    · exact ⟨_, rfl⟩
    · next hpre =>
      rw [List.isPrefixOf_iff_prefix] at hpre
      obtain hfirst | hrest := List.infix_cons_iff.mp h
      · exact absurd hfirst hpre
      · obtain ⟨p, hp⟩ := ih hrest
        exact ⟨_, Option.map_eq_some_iff.mpr ⟨p, hp, rfl⟩⟩

theorem contains_iff : contains sep s = true ↔ sep <:+: s := by
  rw [contains, Option.isSome_iff_exists]
  constructor
  · rintro ⟨p, hp⟩
    exact ⟨p.1, p.2, (splitOnce_some hp).symm⟩
  · exact exists_splitOnce

/-- The parts of a string by its first separator. -/
theorem splitPair_eq (s : List Char) : splitPair x y s =
    match splitOnce [x, y] s with
    | none => [s]
    | some p => p.1 :: splitPair x y p.2 := by
  induction s with
  | nil => rfl
  | cons c s ih =>
    cases s with
    | nil => simp [splitPair, splitOnce]
    | cons d s =>
      rw [splitPair, splitOnce]
      by_cases h : c = x ∧ d = y
      · obtain ⟨rfl, rfl⟩ := h
        have hpre : [c, d].isPrefixOf (c :: d :: s) = true :=
          List.isPrefixOf_iff_prefix.mpr (List.prefix_append [c, d] s)
        rw [if_pos ⟨rfl, rfl⟩, if_pos hpre]
        rfl
      · have hpre : ¬[x, y].isPrefixOf (c :: d :: s) = true := by
          rw [List.isPrefixOf_iff_prefix, List.cons_prefix_cons, List.cons_prefix_cons]
          exact fun hp => h ⟨hp.1.symm, hp.2.1.symm⟩
        rw [if_neg h, if_neg hpre, ih]
        cases splitOnce [x, y] (d :: s) with
        | none => rfl
        | some p => rfl

theorem length_le_of_mem_splitPair {p : List Char} (h : p ∈ splitPair x y s) :
    p.length ≤ s.length := by
  induction hn : s.length using Nat.strongRecOn generalizing s with
  | ind n ih =>
    rw [splitPair_eq] at h
    cases hs : splitOnce [x, y] s with
    | none =>
      rw [hs, List.mem_singleton] at h
      rw [h, hn]
    | some q =>
      rw [hs, List.mem_cons] at h
      have hlen := congrArg List.length (splitOnce_some hs)
      simp only [List.length_append, List.length_cons, List.length_nil] at hlen
      rcases h with rfl | hmem
      · omega
      · have hle := ih q.2.length (by omega) hmem rfl
        omega

theorem length_strip_le (s : List Char) : (strip s).length ≤ s.length := by
  rw [strip, List.length_reverse]
  refine (List.dropWhile_sublist _).length_le.trans ?_
  rw [List.length_reverse]
  exact (List.dropWhile_sublist _).length_le

theorem strip_eq (h : ∀ c ∈ s, isSpace c = false) : strip s = s := by
  have hself : ∀ t : List Char, (∀ c ∈ t, isSpace c = false) → t.dropWhile isSpace = t := by
    intro t ht
    cases t with
    | nil => rfl
    | cons c t => rw [List.dropWhile_cons, ht c (List.mem_cons_self ..)]; rfl
  rw [strip, hself s h, hself s.reverse fun c hc => h c (List.mem_reverse.mp hc),
    List.reverse_reverse]

theorem not_isSpace_of_isAlphanum (h : c.isAlphanum = true) : isSpace c = false := by
  rw [Bool.eq_false_iff]
  intro hs
  simp only [isSpace, Bool.or_eq_true, decide_eq_true_eq] at hs
  obtain ((((rfl | rfl) | rfl) | rfl) | rfl) | rfl := hs
  all_goals exact absurd h (by decide)

theorem not_isSpace_of_isDigit (h : c.isDigit = true) : isSpace c = false := by
  apply not_isSpace_of_isAlphanum
  rw [Char.isAlphanum, h, Bool.or_true]

/-- The digits of a number are read as the number. -/
theorem toInt_toDigits (n : Nat) : toInt (Nat.toDigits 10 n) = some (n : Int) := by
  have hdigit : ∀ c ∈ Nat.toDigits 10 n, c.isDigit = true :=
    fun c hc => Nat.isDigit_of_mem_toDigits (by decide) (by decide) hc
  have hspace : ∀ c ∈ Nat.toDigits 10 n, isSpace c = false :=
    fun c hc => not_isSpace_of_isDigit (hdigit c hc)
  have hvalue : digitsValue (Nat.toDigits 10 n) = some n := by
    rw [digitsValue, if_pos ⟨Nat.toDigits_ne_nil, List.all_eq_true.mpr hdigit⟩,
      Nat.ofDigitChars_ten_toDigits]
  rw [toInt, strip_eq hspace]
  split
  · next ds hds =>
    have hd := hdigit '-' (hds ▸ List.mem_cons_self ..)
    exact absurd hd (by decide)
  · next ds hds =>
    have hd := hdigit '+' (hds ▸ List.mem_cons_self ..)
    exact absurd hd (by decide)
  · rw [hvalue]
    rfl

/-- A string of white space. -/
theorem isSpace_of_strip (h : strip s = []) (hc : c ∈ s) : isSpace c = true := by
  rw [strip, List.reverse_eq_nil_iff, List.dropWhile_eq_nil_iff] at h
  have hsplit := List.takeWhile_append_dropWhile (p := isSpace) (l := s)
  rw [← hsplit, List.mem_append] at hc
  rcases hc with htake | hdrop
  · exact List.mem_takeWhile_imp htake
  · exact h c (List.mem_reverse.mpr hdrop)

/-- A string with no white space at its ends. -/
structure IsTrimmed (s : List Char) : Prop where
  head : ∃ c, s.head? = some c ∧ isSpace c = false
  last : ∃ c, s.getLast? = some c ∧ isSpace c = false

theorem IsTrimmed.ne_nil (h : IsTrimmed s) : s ≠ [] := by
  rintro rfl
  obtain ⟨c, hc, -⟩ := h.head
  cases hc

theorem isTrimmed_of_all (hne : s ≠ []) (h : ∀ c ∈ s, isSpace c = false) : IsTrimmed s where
  head := ⟨s.head hne, List.head?_eq_some_head hne, h _ (List.head_mem hne)⟩
  last := ⟨s.getLast hne, List.getLast?_eq_some_getLast hne, h _ (List.getLast_mem hne)⟩

theorem dropWhile_isSpace (h : s.head? = some c) (hc : isSpace c = false) :
    s.dropWhile isSpace = s := by
  obtain ⟨t, rfl⟩ := List.head?_eq_some_iff.mp h
  rw [List.dropWhile_cons, hc]
  rfl

/-- A space behind a string is stripped. -/
theorem IsTrimmed.strip_append (h : IsTrimmed s) : strip (s ++ [' ']) = s := by
  obtain ⟨c, hc, hcs⟩ := h.head
  obtain ⟨d, hd, hds⟩ := h.last
  have hhead : (s ++ [' ']).head? = some c := by rw [List.head?_append, hc]; rfl
  have hlast : s.reverse.head? = some d := by rw [List.head?_reverse, hd]
  have hspace : isSpace ' ' = true := by decide
  rw [strip, dropWhile_isSpace hhead hcs, List.reverse_append, List.reverse_singleton,
    List.singleton_append, List.dropWhile_cons, hspace, if_pos rfl, dropWhile_isSpace hlast hds,
    List.reverse_reverse]

/-! ## Joining -/

theorem join_cons_cons (sep p q : List Char) (ps : List (List Char)) :
    join sep (p :: q :: ps) = p ++ sep ++ join sep (q :: ps) := rfl

theorem infix_join {p : List Char} {ps : List (List Char)} (h : p ∈ ps) : p <:+: join sep ps := by
  induction ps with
  | nil => cases h
  | cons q ps ih =>
    cases ps with
    | nil =>
      rw [List.mem_singleton.mp h]
      exact List.infix_rfl
    | cons r ps =>
      rw [join_cons_cons]
      rcases List.mem_cons.mp h with rfl | hmem
      · rw [List.append_assoc]
        exact (List.prefix_append _ _).isInfix
      · exact (ih hmem).trans (List.suffix_append _ _).isInfix

theorem IsTrimmed.join {ps : List (List Char)} (hne : ps ≠ []) (h : ∀ p ∈ ps, IsTrimmed p) :
    IsTrimmed (join sep ps) := by
  induction ps with
  | nil => exact absurd rfl hne
  | cons p ps ih =>
    have hp := h p (List.mem_cons_self ..)
    cases ps with
    | nil => exact hp
    | cons q ps =>
      have hrest := ih (List.cons_ne_nil _ _) fun r hr => h r (List.mem_cons_of_mem p hr)
      obtain ⟨c, hc, hcs⟩ := hp.head
      obtain ⟨d, hd, hds⟩ := hrest.last
      rw [join_cons_cons]
      constructor
      · refine ⟨c, ?_, hcs⟩
        rw [List.append_assoc, List.head?_append, hc]
        rfl
      · refine ⟨d, ?_, hds⟩
        rw [List.getLast?_append, hd]
        rfl

theorem sep_infix_join {ps : List (List Char)} (h : 2 ≤ ps.length) : sep <:+: join sep ps := by
  match ps, h with
  | p :: q :: ps, _ =>
    rw [join_cons_cons]
    exact List.infix_append _ _ _

end PyStr
