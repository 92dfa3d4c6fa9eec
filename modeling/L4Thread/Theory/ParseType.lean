import L4Thread.Irpy.Types
import L4Thread.Theory.Symbolic

/-!
# Which types are parsed back

`parse_type` finds its way in a string by searching, so that it takes apart at the wrong place what
has a function type inside. A prefix of what is printed for a type, up to one of the characters that
it searches for, is never parsed as that type; so the types that come back right are just those
where nothing is found too early.
-/

namespace L4Thread.Irpy

open PyStr

variable {ctx : TypeTables} {s t a b typ : List Char} {T : IType} {Ts : List IType}

/-! ## One call -/

theorem mapM_congr {f g : List Char → Except Exc IType} {ps : List (List Char)}
    (h : ∀ p ∈ ps, f p = g p) : ps.mapM f = ps.mapM g := by
  induction ps with
  | nil => rfl
  | cons p ps ih =>
    rw [List.mapM_cons, List.mapM_cons, h p (List.mem_cons_self ..),
      ih fun q hq => h q (List.mem_cons_of_mem p hq)]

/-- The calls are for shorter strings. -/
theorem parseTypeBody_congr {f g : List Char → Except Exc IType}
    (h : ∀ t : List Char, t.length < typ.length → f t = g t) :
    parseTypeBody ctx f typ = parseTypeBody ctx g typ := by
  have hfunction : parseFunction f typ = parseFunction g typ := by
    rw [parseFunction, parseFunction]
    split
    · rfl
    · next ret args hsplit =>
      have hlen := congrArg List.length (splitOnce_some hsplit)
      simp only [List.length_append, List.length_cons, List.length_nil] at hlen
      have hargs : parseArgs f args.dropLast = parseArgs g args.dropLast := by
        rw [parseArgs, parseArgs]
        congr 1
        refine mapM_congr fun p hp => h _ ?_
        have hle := length_le_of_mem_splitPair hp
        rw [List.length_dropLast] at hle
        omega
      rw [hargs, h ret (by omega)]
  have harray : parseArray f typ = parseArray g typ := by
    rw [parseArray, parseArray]
    split
    · split
      · rfl
      · next size subtyp hsplit =>
        have hlen := congrArg List.length (splitOnce_some hsplit)
        simp only [inner, List.length_append, List.length_cons, List.length_nil,
          List.length_dropLast, List.length_tail] at hlen
        rw [h subtyp (by omega)]
    · rfl
  have hnamed : parseNamed ctx f typ = parseNamed ctx g typ := by
    rw [parseNamed, parseNamed]
    split
    · split
      · rfl
      · next name fields hsplit =>
        have hlen := congrArg List.length (splitOnce_some hsplit)
        simp only [List.length_append, List.length_cons, List.length_nil] at hlen
        have hfields : (splitPair ',' ' ' (strip ((fields.drop 7).dropLast))).mapM f =
            (splitPair ',' ' ' (strip ((fields.drop 7).dropLast))).mapM g := by
          refine mapM_congr fun p hp => h _ ?_
          have hle := (length_le_of_mem_splitPair hp).trans (length_strip_le _)
          rw [List.length_dropLast, List.length_drop] at hle
          omega
        rw [hfields]
    · rfl
  rw [parseTypeBody, parseTypeBody, hfunction, harray, hnamed]
  split
  · rfl
  · next hnil =>
    have hpos : 0 < typ.length := List.length_pos_iff.mpr hnil
    rw [h typ.dropLast (by rw [List.length_dropLast]; omega)]

theorem parseTypeUpTo_eq {n m : Nat} (hn : typ.length < n) (hm : typ.length < m) :
    parseTypeUpTo ctx n typ = parseTypeUpTo ctx m typ := by
  induction n generalizing m typ with
  | zero => omega
  | succ n ih =>
    obtain ⟨m, rfl⟩ := Nat.exists_eq_succ_of_ne_zero (by omega : m ≠ 0)
    exact parseTypeBody_congr fun _ ht => ih (by omega) (by omega)

theorem parseType_eq : parseType ctx typ = parseTypeBody ctx (parseType ctx) typ :=
  parseTypeBody_congr fun _ ht => parseTypeUpTo_eq ht (Nat.lt_succ_self _)

/-- A call that looks for function types. -/
def LooksLikeFunction (s : List Char) : Prop := ' ' ∈ s ∧ '(' ∈ s ∧ ')' ∈ s

/-- What a call that succeeds was for. -/
inductive Parses (ctx : TypeTables) : List Char → IType → Prop
  | void : Parses ctx ['v', 'o', 'i', 'd'] .void
  | varArg : Parses ctx ['.', '.', '.'] .varArg
  | pointer {s : List Char} {T : IType} : parseType ctx s = .ok T → Parses ctx (s ++ ['*']) (.pointer T)
  | function {s r a : List Char} {T : IType} {Ts : List IType} :
    splitOnce [' ', '('] s = some (r, a ++ [')']) →
    parseArgs (parseType ctx) a = .ok Ts → parseType ctx r = .ok T → Parses ctx s (.function T Ts)
  | array {w size sub : List Char} {n : Int} {T : IType} :
    ¬LooksLikeFunction ('[' :: w ++ [']']) →
    splitOnce [' ', 'x', ' '] w = some (size, sub) → parseInt size = .ok n →
    parseType ctx sub = .ok T → Parses ctx ('[' :: w ++ [']']) (.array n T)
  | int {s : List Char} {n : Int} : s.head? = some 'i' → Parses ctx s (.int n)
  | intStruct {s n : List Char} : s.head? = some '{' → Parses ctx s (.struct n)
  | definition {s n fields : List Char} {Ts : List IType} :
    ¬LooksLikeFunction s → splitOnce [' ', '=', ' '] s = some ('%' :: n, fields) →
    ['t', 'y', 'p', 'e', ' ', '{'].isPrefixOf fields = true →
    (splitPair ',' ' ' (strip ((fields.drop 7).dropLast))).mapM (parseType ctx) = .ok Ts →
    Parses ctx s (.definition n Ts)
  | lookup {n : List Char} : Parses ctx ('%' :: n) (.struct n)

theorem eq_append_of_getLast? {c : Char} (h : s.getLast? = some c) : s = s.dropLast ++ [c] :=
  (List.dropLast_append_getLast? c h).symm

theorem parseFunction_spec (h : parseFunction (parseType ctx) s = .ok T) : Parses ctx s T := by
  rw [parseFunction] at h
  split at h
  · cases h
  · next r args hsplit =>
    split at h
    · next hlast =>
      obtain ⟨Ts, hargs, h⟩ := bind_eq_ok_iff.mp h
      obtain ⟨R, hret, h⟩ := bind_eq_ok_iff.mp h
      cases h
      rw [eq_append_of_getLast? hlast] at hsplit
      exact .function hsplit hargs hret
    · cases h

theorem parseArray_spec (hf : ¬LooksLikeFunction s) (hhead : s.head? = some '[')
    (h : parseArray (parseType ctx) s = .ok T) : Parses ctx s T := by
  rw [parseArray] at h
  split at h
  · next hlast =>
    obtain ⟨u, rfl⟩ := List.head?_eq_some_iff.mp hhead
    have hu : u ≠ [] := by
      rintro rfl
      cases hlast
    have hu' : u = u.dropLast ++ [']'] := by
      apply eq_append_of_getLast?
      rwa [List.getLast?_cons_of_ne_nil hu] at hlast
    split at h
    · cases h
    · next size sub hsplit =>
      obtain ⟨n, hn, h⟩ := bind_eq_ok_iff.mp h
      obtain ⟨E, helem, h⟩ := bind_eq_ok_iff.mp h
      cases h
      rw [hu'] at hf ⊢
      exact .array hf hsplit hn helem
  · cases h

theorem lookup_spec (h : ctx.lookup s = .ok T) : ∃ n, s = '%' :: n ∧ T = .struct n := by
  unfold TypeTables.lookup at h
  split at h
  · next n =>
    split at h
    · cases h
      exact ⟨n, rfl, rfl⟩
    · cases h
  · cases h

theorem parseNamed_spec (hf : ¬LooksLikeFunction s) (hhead : s.head? = some '%')
    (h : parseNamed ctx (parseType ctx) s = .ok T) : Parses ctx s T := by
  rw [parseNamed] at h
  split at h
  · split at h
    · cases h
    · next name fields hsplit =>
      split at h
      · next hfields =>
        obtain ⟨Ts, hTs, h⟩ := bind_eq_ok_iff.mp h
        cases h
        have hs := splitOnce_some hsplit
        cases name with
        | nil =>
          rw [hs] at hhead
          exact absurd (Option.some.inj hhead) (by decide)
        | cons c n =>
          rw [hs] at hhead
          obtain rfl : c = '%' := Option.some.inj hhead
          exact .definition hf hsplit hfields.1 hTs
      · cases h
  · obtain ⟨n, rfl, rfl⟩ := lookup_spec h
    exact .lookup

theorem parseIntStruct_spec (hhead : s.head? = some '{') (h : parseIntStruct ctx s = .ok T) :
    Parses ctx s T := by
  have hlookup : ∃ key, ctx.lookup key = .ok T := by
    rw [parseIntStruct] at h
    split at h
    · dsimp only at h
      split at h
      · split at h
        · cases h
        · next key _ =>
          split at h
          · cases h
          · exact ⟨key, h⟩
      · cases h
    · cases h
  obtain ⟨key, hkey⟩ := hlookup
  obtain ⟨n, -, rfl⟩ := lookup_spec hkey
  exact .intStruct hhead

theorem parseType_spec (h : parseType ctx s = .ok T) : Parses ctx s T := by
  rw [parseType_eq, parseTypeBody] at h
  split at h
  · cases h
  split at h
  · next hlast =>
    obtain ⟨D, hD, h⟩ := bind_eq_ok_iff.mp h
    cases h
    rw [eq_append_of_getLast? hlast]
    exact .pointer hD
  split at h
  · next hvoid =>
    cases h
    exact hvoid ▸ .void
  split at h
  · next hdots =>
    cases h
    exact hdots ▸ .varArg
  split at h
  · exact parseFunction_spec h
  · next hf =>
    split at h
    · next hhead => exact parseArray_spec hf hhead h
    split at h
    · next hhead =>
      obtain ⟨n, -, h⟩ := bind_eq_ok_iff.mp h
      cases h
      exact .int hhead
    split at h
    · next hhead => exact parseIntStruct_spec hhead h
    split at h
    · next hhead => exact parseNamed_spec hf hhead h
    · cases h

/-! ## Prefixes -/

/-- The characters that follow a part of a type. -/
def IsDelimiter (c : Char) : Prop := c = '*' ∨ c = ' ' ∨ c = ',' ∨ c = ')' ∨ c = ']'

instance (c : Char) : Decidable (IsDelimiter c) := by
  unfold IsDelimiter
  infer_instance

/-- No prefix of the string that ends before a delimiter is parsed as the type. -/
def Resists (ctx : TypeTables) (d : List Char) (T : IType) : Prop :=
  ∀ r c rest, d = r ++ c :: rest → IsDelimiter c → parseType ctx r ≠ .ok T

variable {d : List Char} {ds : List (List Char × IType)}

theorem resists_of_no_delimiter (h : ∀ c ∈ d, ¬IsDelimiter c) : Resists ctx d T := by
  intro r c rest hd hc
  have hmem : c ∈ d := by
    rw [hd]
    exact List.mem_append_right r (List.mem_cons_self ..)
  exact absurd hc (h c hmem)

/-- A part that ends where another one follows. -/
theorem append_cons_cases {u v w : List Char} {c : Char} (h : u ++ v = w ++ c :: t) :
    (∃ t', u = w ++ c :: t') ∨ ∃ w', w = u ++ w' ∧ v = w' ++ c :: t := by
  rcases List.append_eq_append_iff.mp h with ⟨w', rfl, hv⟩ | ⟨t', rfl, ht⟩
  · exact .inr ⟨w', rfl, hv⟩
  · cases t' with
    | nil => exact .inr ⟨[], by simp, by simpa using ht.symm⟩
    | cons e t' =>
      obtain ⟨rfl, -⟩ := List.cons.inj ht
      exact .inl ⟨t', rfl⟩

theorem Resists.pointer (h : Resists ctx d T) : Resists ctx (d ++ ['*']) (.pointer T) := by
  intro r c rest hd hc hparse
  cases parseType_spec hparse with
  | pointer hT =>
    rename_i s
    rw [List.append_assoc, List.singleton_append] at hd
    rcases append_cons_cases hd with ⟨t', ht'⟩ | ⟨w', rfl, hw⟩
    · exact h _ _ _ ht' (.inl rfl) hT
    · cases w' with
      | nil => cases hw
      | cons e w' =>
        have hlen := congrArg List.length hw
        simp at hlen

theorem Resists.array {n : Nat} (h : Resists ctx d T) :
    Resists ctx ('[' :: Nat.toDigits 10 n ++ [' ', 'x', ' '] ++ d ++ [']']) (.array n T) := by
  intro r c rest hd hc hparse
  cases parseType_spec hparse with
  | array hf hsplit hn hT =>
    rename_i w size sub
    have hdigits : ' ' ∉ Nat.toDigits 10 n := fun hmem =>
      absurd (Nat.isDigit_of_mem_toDigits (by decide) (by decide) hmem) (by decide)
    have hlong := splitOnce_append hsplit (']' :: c :: rest)
    have hw : w ++ ']' :: c :: rest =
        Nat.toDigits 10 n ++ (' ' :: ['x', ' '] ++ (d ++ [']'])) := by
      simpa using hd.symm
    rw [hw, splitOnce_head hdigits] at hlong
    obtain ⟨-, hsub⟩ := Prod.mk.inj (Option.some.inj hlong)
    rcases append_cons_cases hsub with ⟨t', ht'⟩ | ⟨w', rfl, hw'⟩
    · exact h _ _ _ ht' (by decide) hT
    · have hlen := congrArg List.length hw'
      simp only [List.length_append, List.length_cons, List.length_nil] at hlen
      omega

theorem mapM_cons_eq_ok {f : List Char → Except Exc IType} {ps : List (List Char)} :
    (t :: ps).mapM f = .ok (T :: Ts) ↔ f t = .ok T ∧ ps.mapM f = .ok Ts := by
  rw [List.mapM_cons]
  constructor
  · intro h
    obtain ⟨T', hT, h⟩ := bind_eq_ok_iff.mp h
    obtain ⟨Ts', hTs, h⟩ := bind_eq_ok_iff.mp h
    cases h
    exact ⟨hT, hTs⟩
  · rintro ⟨hT, hTs⟩
    rw [hT, hTs]
    rfl

/-- The first part of a string that ends before a delimiter. -/
theorem mapM_splitPair_prefix {c : Char} (h : Resists ctx d T) (hd : d = a ++ c :: b)
    (hc : IsDelimiter c) : (splitPair ',' ' ' a).mapM (parseType ctx) ≠ .ok (T :: Ts) := by
  intro hparse
  rw [splitPair_eq] at hparse
  cases hs : splitOnce [',', ' '] a with
  | none =>
    rw [hs, mapM_cons_eq_ok] at hparse
    exact h _ _ _ hd hc hparse.1
  | some q =>
    have ha := splitOnce_some hs
    rw [hs, mapM_cons_eq_ok] at hparse
    rw [ha, List.append_assoc, List.append_assoc, List.cons_append] at hd
    exact h _ _ _ hd (by decide) hparse.1

/-- The parts from one that is followed by others. -/
theorem mapM_splitPair_cons (h : Resists ctx d T) :
    (splitPair ',' ' ' (d ++ [',', ' '] ++ b)).mapM (parseType ctx) = .ok (T :: Ts) ↔
      splitOnce [',', ' '] d = none ∧ parseType ctx d = .ok T ∧
        (splitPair ',' ' ' b).mapM (parseType ctx) = .ok Ts := by
  rw [splitPair_eq, List.append_assoc]
  cases hs : splitOnce [',', ' '] d with
  | none =>
    rw [List.cons_append, List.cons_append, List.nil_append, splitOnce_pair (by decide) hs,
      mapM_cons_eq_ok]
    exact ⟨fun hp => ⟨rfl, hp⟩, fun hp => hp.2⟩
  | some q =>
    have hd := splitOnce_some hs
    rw [splitOnce_append hs, mapM_cons_eq_ok]
    constructor
    · intro hp
      rw [List.append_assoc] at hd
      exact absurd hp.1 (h _ _ _ hd (by decide))
    · intro hp
      cases hp.1

/-- The parts of the arguments, if they were cut at a parenthesis. -/
theorem mapM_splitPair_ne (h : ∀ p ∈ ds, Resists ctx p.1 p.2)
    (hj : join [',', ' '] (ds.map Prod.fst) = a ++ ')' :: b) :
    (splitPair ',' ' ' a).mapM (parseType ctx) ≠ .ok (ds.map Prod.snd) := by
  induction ds generalizing a with
  | nil =>
    have hlen := congrArg List.length hj
    simp [join] at hlen
  | cons p ds ih =>
    have hp := h p (List.mem_cons_self ..)
    cases ds with
    | nil => exact mapM_splitPair_prefix hp hj (by decide)
    | cons q ds =>
      have hrest : p.1 ++ ([',', ' '] ++ join [',', ' '] ((q :: ds).map Prod.fst)) =
          a ++ ')' :: b := by
        rw [← hj, ← List.append_assoc]
        rfl
      rcases append_cons_cases hrest with ⟨t', ht'⟩ | ⟨w', rfl, hw'⟩
      · exact mapM_splitPair_prefix hp ht' (by decide)
      · match w', hw' with
        | [], hw' => exact absurd (List.cons.inj hw').1 (by decide)
        | [_], hw' => exact absurd (List.cons.inj (List.cons.inj hw').2).1 (by decide)
        | x :: y :: w'', hw' =>
          simp only [List.cons_append, List.nil_append, List.cons.injEq] at hw'
          obtain ⟨rfl, rfl, hw'⟩ := hw'
          intro hparse
          have heq : p.1 ++ ',' :: ' ' :: w'' = p.1 ++ [',', ' '] ++ w'' := by simp
          rw [heq, List.map_cons, mapM_splitPair_cons hp] at hparse
          exact ih (fun q hq => h q (List.mem_cons_of_mem p hq)) hw' hparse.2.2

theorem Resists.function {r : List Char} (h : Resists ctx r T)
    (hds : ∀ p ∈ ds, Resists ctx p.1 p.2) :
    Resists ctx (r ++ [' ', '('] ++ join [',', ' '] (ds.map Prod.fst) ++ [')'])
      (.function T (ds.map Prod.snd)) := by
  intro u c rest hd hc hparse
  cases parseType_spec hparse with
  | function hsplit hargs hret =>
    rename_i r' a
    have hlong := splitOnce_append hsplit (c :: rest)
    rw [← hd, List.append_assoc, List.append_assoc] at hlong
    cases hs : splitOnce [' ', '('] r with
    | some q =>
      rw [splitOnce_append hs] at hlong
      obtain ⟨rfl, -⟩ := Prod.mk.inj (Option.some.inj hlong)
      have hr := splitOnce_some hs
      rw [List.append_assoc] at hr
      exact h _ _ _ hr (by decide) hret
    | none =>
      rw [List.cons_append, List.cons_append, List.nil_append, splitOnce_pair (by decide) hs]
        at hlong
      obtain ⟨rfl, hj⟩ := Prod.mk.inj (Option.some.inj hlong)
      rw [List.append_assoc, List.singleton_append] at hj
      rcases append_cons_cases hj with ⟨t', ht'⟩ | ⟨w', rfl, hw'⟩
      · rw [parseArgs] at hargs
        split at hargs
        · have hnil : ds = [] := List.map_eq_nil_iff.mp (Except.ok.inj hargs).symm
          rw [hnil] at ht'
          have hlen := congrArg List.length ht'
          simp [join] at hlen
        · exact mapM_splitPair_ne hds ht' hargs
      · have hlen := congrArg List.length hw'
        simp only [List.length_append, List.length_cons, List.length_nil] at hlen
        omega

/-- The parts of all arguments. -/
theorem mapM_splitPair_join (hne : ds ≠ []) (h : ∀ p ∈ ds, Resists ctx p.1 p.2) :
    (splitPair ',' ' ' (join [',', ' '] (ds.map Prod.fst))).mapM (parseType ctx) =
        .ok (ds.map Prod.snd) ↔
      ∀ p ∈ ds, splitOnce [',', ' '] p.1 = none ∧ parseType ctx p.1 = .ok p.2 := by
  induction ds with
  | nil => exact absurd rfl hne
  | cons p ds ih =>
    have hp := h p (List.mem_cons_self ..)
    cases ds with
    | nil =>
      rw [List.forall_mem_singleton]
      change (splitPair ',' ' ' p.1).mapM (parseType ctx) = .ok [p.2] ↔ _
      rw [splitPair_eq]
      cases hs : splitOnce [',', ' '] p.1 with
      | none =>
        rw [mapM_cons_eq_ok]
        exact ⟨fun hparse => ⟨rfl, hparse.1⟩, fun hparse => ⟨hparse.2, rfl⟩⟩
      | some q =>
        have hd := splitOnce_some hs
        rw [List.append_assoc] at hd
        rw [mapM_cons_eq_ok]
        constructor
        · intro hparse
          exact absurd hparse.1 (hp _ _ _ hd (by decide))
        · intro hparse
          cases hparse.1
    | cons q ds =>
      have hrest := ih (List.cons_ne_nil _ _) fun q hq => h q (List.mem_cons_of_mem p hq)
      rw [List.forall_mem_cons, ← hrest, List.map_cons, List.map_cons, List.map_cons,
        join_cons_cons, mapM_splitPair_cons hp, and_assoc]

/-! ## Forms of strings -/

theorem parseType_else (hnil : s ≠ []) (hptr : s.getLast? ≠ some '*')
    (hvoid : s ≠ ['v', 'o', 'i', 'd']) (hdots : s ≠ ['.', '.', '.']) : parseType ctx s =
      if ' ' ∈ s ∧ '(' ∈ s ∧ ')' ∈ s then parseFunction (parseType ctx) s
      else if s.head? = some '[' then parseArray (parseType ctx) s
      else if s.head? = some 'i' then do
        return .int (← parseInt (s.dropWhile (· = 'i')))
      else if s.head? = some '{' then parseIntStruct ctx s
      else if s.head? = some '%' then parseNamed ctx (parseType ctx) s
      else .error .value := by
  rw [parseType_eq, parseTypeBody, if_neg hnil, if_neg hptr, if_neg hvoid, if_neg hdots]

theorem parseType_pointer (h : parseType ctx s = .ok T) :
    parseType ctx (s ++ ['*']) = .ok (.pointer T) := by
  rw [parseType_eq, parseTypeBody, if_neg (by simp), if_pos (by simp), List.dropLast_concat, h]
  rfl

theorem parseType_array {n : Nat} (hd : '(' ∉ d) (h : parseType ctx d = .ok T) :
    parseType ctx ('[' :: Nat.toDigits 10 n ++ [' ', 'x', ' '] ++ d ++ [']']) =
      .ok (.array n T) := by
  have hdigits : ∀ {c : Char}, c.isDigit = false → c ∉ Nat.toDigits 10 n := by
    intro c hc hmem
    rw [Nat.isDigit_of_mem_toDigits (by decide) (by decide) hmem] at hc
    cases hc
  have hparen : '(' ∉ '[' :: Nat.toDigits 10 n ++ [' ', 'x', ' '] ++ d ++ [']'] := by
    simp [hd, hdigits (show '('.isDigit = false by decide)]
  have hinner : inner ('[' :: Nat.toDigits 10 n ++ [' ', 'x', ' '] ++ d ++ [']']) =
      Nat.toDigits 10 n ++ (' ' :: ['x', ' '] ++ d) := by
    rw [inner, List.cons_append, List.cons_append, List.cons_append, List.tail_cons,
      List.dropLast_concat]
    simp
  have hlast : ('[' :: Nat.toDigits 10 n ++ [' ', 'x', ' '] ++ d ++ [']']).getLast? = some ']' :=
    List.getLast?_concat
  rw [parseType_else (by simp) (by rw [hlast]; decide) (by simp) (by simp),
    if_neg fun hf => hparen hf.2.1, if_pos (by simp), parseArray, if_pos hlast, hinner,
    splitOnce_head (hdigits (by decide))]
  simp only [parseInt, toInt_toDigits, h]
  rfl

theorem parseType_int (w : Nat) : parseType ctx ('i' :: Nat.toDigits 10 w) = .ok (.int w) := by
  have hdigit : ∀ c ∈ Nat.toDigits 10 w, c.isDigit = true :=
    fun c hc => Nat.isDigit_of_mem_toDigits (by decide) (by decide) hc
  have hspace : ' ' ∉ 'i' :: Nat.toDigits 10 w := by
    rw [List.mem_cons, not_or]
    exact ⟨by decide, fun hmem => absurd (hdigit _ hmem) (by decide)⟩
  have hlast : ('i' :: Nat.toDigits 10 w).getLast? ≠ some '*' := by
    intro hlast
    rcases List.mem_cons.mp (List.mem_of_getLast? hlast) with heq | hmem
    · exact absurd heq (by decide)
    · exact absurd (hdigit _ hmem) (by decide)
  have hdrop : ('i' :: Nat.toDigits 10 w).dropWhile (· = 'i') = Nat.toDigits 10 w := by
    cases hd : Nat.toDigits 10 w with
    | nil => rfl
    | cons c cs =>
      have hc : c ≠ 'i' := by
        rintro rfl
        exact absurd (hdigit 'i' (hd ▸ List.mem_cons_self ..)) (by decide)
      simp [hc]
  rw [parseType_else (by simp) hlast (by simp) (by simp), if_neg fun hf => hspace hf.1,
    if_neg (by simp), if_pos (by simp), hdrop, parseInt, toInt_toDigits]
  rfl

theorem parseType_function {r : List Char} (hr : splitOnce [' ', '('] r = none)
    (hT : parseType ctx r = .ok T) (hargs : parseArgs (parseType ctx) a = .ok Ts) :
    parseType ctx (r ++ [' ', '('] ++ a ++ [')']) = .ok (.function T Ts) := by
  have hlast : (r ++ [' ', '('] ++ a ++ [')']).getLast? = some ')' := List.getLast?_concat
  have hne : ∀ t : List Char, t.getLast? ≠ some ')' → r ++ [' ', '('] ++ a ++ [')'] ≠ t :=
    fun t ht heq => ht (heq ▸ hlast)
  have hsplit : splitOnce [' ', '('] (r ++ [' ', '('] ++ a ++ [')']) = some (r, a ++ [')']) := by
    rw [List.append_assoc, List.append_assoc, List.cons_append, List.cons_append, List.nil_append,
      splitOnce_pair (by decide) hr]
  rw [parseType_else (hne _ (by simp)) (by rw [hlast]; decide) (hne _ (by simp)) (hne _ (by simp)),
    if_pos (by simp), parseFunction, hsplit]
  simp only [List.getLast?_concat, List.dropLast_concat, if_true, hargs, hT]
  rfl

theorem parseType_named {name fields : List Char} (hhead : s.head? = some '%') (hf : '(' ∉ s)
    (hlast : s.getLast? = some '}')
    (hdef : contains [' ', '=', ' ', 't', 'y', 'p', 'e', ' '] s = true)
    (hsplit : splitOnce [' ', '=', ' '] s = some (name, fields))
    (hbrace : ['t', 'y', 'p', 'e', ' ', '{'].isPrefixOf fields = true)
    (hend : fields.getLast? = some '}')
    (hmap : (splitPair ',' ' ' (strip ((fields.drop 7).dropLast))).mapM (parseType ctx) = .ok Ts) :
    parseType ctx s = .ok (.definition name.tail Ts) := by
  have hne : ∀ t : List Char, t.head? ≠ some '%' → s ≠ t := fun t ht heq => ht (heq ▸ hhead)
  rw [parseType_else (hne _ (by simp)) (by simp [hlast]) (hne _ (by simp)) (hne _ (by simp)),
    if_neg fun h => hf h.2.1, if_neg (by simp [hhead]), if_neg (by simp [hhead]),
    if_neg (by simp [hhead]), if_pos hhead, parseNamed, if_pos hdef, hsplit]
  dsimp only
  rw [if_pos ⟨hbrace, hend⟩, hmap]
  rfl

/-! ## Struct names -/

namespace LlvmType

variable {n : List Char}

/-- The characters that a quote is escaped to, again and again. -/
def isEscape (c : Char) : Bool := c = '\\' || c = '2' || c = '5' || c = 'C'

theorem isEscape_iff {c : Char} : isEscape c = true ↔ c = '\\' ∨ c = '2' ∨ c = '5' ∨ c = 'C' := by
  simp [isEscape, or_assoc]

theorem escape_escape {c : Char} (h : isEscape c = true) :
    escape c ≠ [] ∧ (escape c).all isEscape = true := by
  rcases isEscape_iff.mp h with rfl | rfl | rfl | rfl
  all_goals decide

theorem not_delimiter_of_escaped {c : Char} {u rest : List Char} (hu : u ≠ [])
    (hesc : u.all isEscape = true) (h : u ++ (a.flatMap escape ++ ['"']) = a ++ c :: rest) :
    ¬IsDelimiter c := by
  induction a generalizing u with
  | nil =>
    cases u with
    | nil => exact absurd rfl hu
    | cons e u =>
      rw [List.all_cons, Bool.and_eq_true, isEscape_iff] at hesc
      obtain rfl : e = c := (List.cons.inj h).1
      rcases hesc.1 with rfl | rfl | rfl | rfl
      all_goals decide
  | cons x a ih =>
    cases u with
    | nil => exact absurd rfl hu
    | cons e u =>
      rw [List.all_cons, Bool.and_eq_true] at hesc
      rw [List.cons_append, List.cons_append] at h
      obtain ⟨rfl, h⟩ := List.cons.inj h
      obtain ⟨hne, hall⟩ := escape_escape hesc.1
      apply ih (u := u ++ escape e)
      · exact fun hnil => hne (List.append_eq_nil_iff.mp hnil).2
      · rw [List.all_append, hesc.2, hall]
        rfl
      · rw [← h, List.flatMap_cons, List.append_assoc, List.append_assoc]

/-- A name in quotes does not begin with the name. -/
theorem quoted_ne {c : Char} {rest : List Char} (hc : IsDelimiter c) :
    '"' :: (n.flatMap escape ++ ['"']) ≠ n ++ c :: rest := by
  intro h
  cases n with
  | nil =>
    obtain rfl : '"' = c := (List.cons.inj h).1
    exact absurd hc (by decide)
  | cons x a =>
    rw [List.cons_append] at h
    obtain ⟨rfl, h⟩ := List.cons.inj h
    have hquote : escape '"' = ['\\', '2', '2'] := by decide
    rw [List.flatMap_cons, hquote, List.append_assoc] at h
    exact not_delimiter_of_escaped (by decide) (by decide) h hc

theorem length_le_escape (n : List Char) : n.length ≤ (n.flatMap escape).length := by
  induction n with
  | nil => exact Nat.le_refl _
  | cons c n ih =>
    have hpos : 0 < (escape c).length := by
      rw [escape]
      split <;> exact Nat.succ_pos _
    rw [List.flatMap_cons, List.length_append, List.length_cons]
    omega

/-- What a struct name in quotes, or the part of it before a delimiter, is not parsed as. -/
theorem parseType_quoted_ne (hs : s = '"' :: (n.flatMap escape ++ ['"']) ∨
      ∃ c rest, IsDelimiter c ∧ '"' :: (n.flatMap escape ++ ['"']) = s ++ c :: rest) :
    parseType ctx ('%' :: s) ≠ .ok (.struct n) := by
  intro hparse
  generalize hu : '%' :: s = u at hparse
  cases parseType_spec hparse with
  | intStruct hhead =>
    rw [← hu] at hhead
    exact absurd (Option.some.inj hhead) (by decide)
  | lookup =>
    obtain ⟨-, rfl⟩ := List.cons.inj hu
    rcases hs with hs | ⟨c, rest, hc, hs⟩
    · have hlen := congrArg List.length hs
      have hle := length_le_escape s
      simp only [List.length_cons, List.length_append, List.length_nil] at hlen
      omega
    · exact quoted_ne hc hs

/-! ## The types that are parsed back -/

/-- A function type, not behind a parameter list. -/
def hasFunction : LlvmType → Bool
  | function .. => true
  | array _ t | pointer t => hasFunction t
  | _ => false

mutual

/-- A parameter list with a comma. -/
def hasPair : LlvmType → Bool
  | function ret params isVarArg =>
    decide (2 ≤ params.length + isVarArg.toNat) || hasPair ret || anyPair params
  | array _ t | pointer t => hasPair t
  | _ => false

def anyPair : List LlvmType → Bool
  | [] => false
  | t :: ts => hasPair t || anyPair ts

end

mutual

/-- Names are printed without quotes, there is no function type in the elements of an array or what
a function returns, and no parameter has a parameter list with a comma. -/
def isReadable : LlvmType → Bool
  | struct name => !needsQuotes name
  | array _ t => isReadable t && !hasFunction t
  | pointer t => isReadable t
  | function ret params _ => isReadable ret && !hasFunction ret && allReadable params
  | _ => true

def allReadable : List LlvmType → Bool
  | [] => true
  | t :: ts => isReadable t && !hasPair t && allReadable ts

end

mutual

/-- The structs that a type names. -/
def names : LlvmType → List (List Char)
  | struct name => [name]
  | array _ t | pointer t => names t
  | function ret params _ => names ret ++ allNames params
  | _ => []

def allNames : List LlvmType → List (List Char)
  | [] => []
  | t :: ts => names t ++ allNames ts

end

/-- A definition with fields, in plain braces, without function types. -/
def Definition.isReadable (body : Definition) : Bool :=
  match body.fields with
  | some (t :: ts) => !body.isPacked && (t :: ts).all fun t => t.isReadable && !t.hasFunction
  | _ => false

/-- The types of values that are parsed back. -/
def isReadableValue (definitions : List Char → Definition) : LlvmType → Bool
  | struct name => !needsQuotes name && (definitions name).isReadable
  | t => t.isReadable

/-- The structs that are looked up for the type of a value. -/
def valueNames (definitions : List Char → Definition) : LlvmType → List (List Char)
  | struct name => allNames ((definitions name).fields.getD [])
  | t => t.names

/-- Induction with the parameters of a function. -/
theorem induct {P : LlvmType → Prop} (hvoid : P void) (hint : ∀ w, P (int w))
    (hstruct : ∀ n, P (struct n)) (harray : ∀ n t, P t → P (array n t))
    (hpointer : ∀ t, P t → P (pointer t))
    (hfunction : ∀ r ps v, P r → (∀ p ∈ ps, P p) → P (function r ps v)) (t : LlvmType) : P t :=
  @LlvmType.rec P (fun ts => ∀ t ∈ ts, P t) hvoid hint hstruct harray hpointer hfunction
    (fun _ h => nomatch h)
    (fun _ _ hu hus _ h => (List.mem_cons.mp h).elim (fun e => e.symm ▸ hu) (hus _)) t

/-- The parameters, as strings and as types. -/
def pieces (params : List LlvmType) (isVarArg : Bool) : List (List Char × IType) :=
  params.map (fun p => (p.print, p.toIType)) ++
    if isVarArg then [(['.', '.', '.'], .varArg)] else []

theorem pieces_fst (ps : List LlvmType) (v : Bool) : (pieces ps v).map Prod.fst =
    printAll ps ++ if v then [['.', '.', '.']] else [] := by
  have hall : ps.map print = printAll ps := by
    induction ps with
    | nil => rfl
    | cons p ps ih => rw [List.map_cons, ih, printAll]
  rw [pieces, List.map_append, List.map_map, ← hall]
  cases v <;> rfl

theorem pieces_snd (ps : List LlvmType) (v : Bool) : (pieces ps v).map Prod.snd =
    toITypes ps ++ if v then [.varArg] else [] := by
  have hall : ps.map toIType = toITypes ps := by
    induction ps with
    | nil => rfl
    | cons p ps ih => rw [List.map_cons, ih, toITypes]
  rw [pieces, List.map_append, List.map_map, ← hall]
  cases v <;> rfl

theorem mem_pieces {ps : List LlvmType} {v : Bool} {q : List Char × IType} (h : q ∈ pieces ps v) :
    (∃ p ∈ ps, q = (p.print, p.toIType)) ∨ q = (['.', '.', '.'], .varArg) := by
  rcases List.mem_append.mp h with hp | hv
  · obtain ⟨p, hmem, rfl⟩ := List.mem_map.mp hp
    exact .inl ⟨p, hmem, rfl⟩
  · cases v with
    | false => cases hv
    | true => exact .inr (List.mem_singleton.mp hv)

theorem not_delimiter_of_digit {n : Nat} {c : Char} (h : c ∈ Nat.toDigits 10 n) :
    ¬IsDelimiter c := by
  have hdigit := Nat.isDigit_of_mem_toDigits (by decide) (by decide) h
  rintro (rfl | rfl | rfl | rfl | rfl)
  all_goals exact absurd hdigit (by decide)

/-- The characters of a name that is printed as it is. -/
theorem plain_of_not_needsQuotes {n : List Char} (h : needsQuotes n = false) {c : Char}
    (hc : c ∈ n) : c.isAlphanum ∨ c = '-' ∨ c = '.' ∨ c = '_' := by
  rw [needsQuotes, Bool.or_eq_false_iff, Bool.not_eq_false'] at h
  simpa [or_assoc] using List.all_eq_true.mp h.2 c hc

theorem parseType_struct {n : List Char} (hn : needsQuotes n = false)
    (hdecl : n ∈ ctx.declared) : parseType ctx ('%' :: n) = .ok (.struct n) := by
  have hplain : ∀ c ∈ '%' :: n, c ≠ ' ' ∧ c ≠ '*' := by
    intro c hc
    rcases List.mem_cons.mp hc with rfl | hmem
    · exact ⟨by decide, by decide⟩
    · have hname := plain_of_not_needsQuotes hn hmem
      constructor
      all_goals
        rintro rfl
        revert hname
        decide
  have hspace : ' ' ∉ '%' :: n := fun hmem => (hplain _ hmem).1 rfl
  have hlast : ('%' :: n).getLast? ≠ some '*' :=
    fun hlast => (hplain _ (List.mem_of_getLast? hlast)).2 rfl
  have hdef : contains [' ', '=', ' ', 't', 'y', 'p', 'e', ' '] ('%' :: n) = false := by
    rw [contains, splitOnce_none (List.mem_cons_self ..) hspace]
    rfl
  rw [parseType_else (by simp) hlast (by simp) (by simp), if_neg fun hf => hspace hf.1,
    if_neg (by simp), if_neg (by simp), if_neg (by simp), if_pos (by simp), parseNamed, hdef]
  exact if_pos hdecl

theorem resists_struct (n : List Char) : Resists ctx (print (struct n)) (.struct n) := by
  rw [print, printName]
  split
  · intro r c rest hd hc
    cases r with
    | nil =>
      obtain rfl : '%' = c := (List.cons.inj hd).1
      exact absurd hc (by decide)
    | cons e r =>
      rw [List.cons_append] at hd
      obtain ⟨rfl, hname⟩ := List.cons.inj hd
      exact parseType_quoted_ne (.inr ⟨c, rest, hc, hname⟩)
  · next hplain =>
    refine resists_of_no_delimiter fun c hc hdelim => ?_
    rcases List.mem_cons.mp hc with rfl | hmem
    · exact absurd hdelim (by decide)
    · have hname := plain_of_not_needsQuotes (Bool.eq_false_iff.mpr hplain) hmem
      rcases hdelim with rfl | rfl | rfl | rfl | rfl
      all_goals revert hname; decide

/-- No prefix of a printed type up to a delimiter is parsed as the type. -/
theorem resists (t : LlvmType) : Resists ctx t.print t.toIType := by
  induction t using induct with
  | hvoid => exact resists_of_no_delimiter (by simp [print, IsDelimiter])
  | hint w =>
    refine resists_of_no_delimiter fun c hc hdelim => ?_
    rcases List.mem_cons.mp hc with rfl | hdigit
    · exact absurd hdelim (by decide)
    · exact not_delimiter_of_digit hdigit hdelim
  | hstruct n => exact resists_struct n
  | harray n t ih => exact ih.array
  | hpointer t ih => exact ih.pointer
  | hfunction r ps v hr hps =>
    have hpieces : ∀ q ∈ pieces ps v, Resists ctx q.1 q.2 := by
      intro q hq
      rcases mem_pieces hq with ⟨p, hp, rfl⟩ | rfl
      · exact hps p hp
      · exact resists_of_no_delimiter (by simp [IsDelimiter])
    have h := hr.function hpieces
    rw [pieces_fst, pieces_snd] at h
    exact h

/-! ## What a type contains -/

theorem function_infix (r : LlvmType) (ps : List LlvmType) (v : Bool) :
    [' ', '('] <:+: print (function r ps v) ∧ ')' ∈ print (function r ps v) := by
  rw [print]
  constructor
  · exact (List.infix_append _ _ _).trans (List.prefix_append _ _).isInfix
  · exact List.mem_append_right _ (List.mem_singleton_self _)

/-- A function type is seen from outside. -/
theorem infix_of_hasFunction {t : LlvmType} (h : t.hasFunction = true) :
    [' ', '('] <:+: t.print ∧ ')' ∈ t.print := by
  induction t using induct with
  | hvoid | hint | hstruct => cases h
  | harray n t ih =>
    obtain ⟨hpair, hparen⟩ := ih h
    rw [print, List.append_assoc]
    exact ⟨hpair.trans ((List.prefix_append _ _).isInfix.trans (List.suffix_append _ _).isInfix),
      List.mem_append_right _ (List.mem_append_left _ hparen)⟩
  | hpointer t ih =>
    obtain ⟨hpair, hparen⟩ := ih h
    rw [print]
    exact ⟨hpair.trans (List.prefix_append _ _).isInfix, List.mem_append_left _ hparen⟩
  | hfunction r ps v => exact function_infix r ps v

theorem notMem_digits {n : Nat} {c : Char} (hc : c.isDigit = false) : c ∉ Nat.toDigits 10 n := by
  intro hmem
  rw [Nat.isDigit_of_mem_toDigits (by decide) (by decide) hmem] at hc
  cases hc

theorem notMem_name {n : List Char} (h : isReadable (struct n) = true) {c : Char}
    (hc : ¬(c.isAlphanum ∨ c = '-' ∨ c = '.' ∨ c = '_')) : c ∉ printName n := by
  rw [isReadable, Bool.not_eq_true'] at h
  rw [printName, h]
  exact fun hmem => hc (plain_of_not_needsQuotes h hmem)

/-- A parenthesis belongs to a function type. -/
theorem paren_notMem {t : LlvmType} (h : t.isReadable = true) (hf : t.hasFunction = false) :
    '(' ∉ t.print := by
  induction t using induct with
  | hvoid => decide
  | hint w =>
    rw [print, List.mem_cons, not_or]
    exact ⟨by decide, notMem_digits (by decide)⟩
  | hstruct n =>
    rw [print, List.mem_cons, not_or]
    exact ⟨by decide, notMem_name h (by decide)⟩
  | harray n t ih =>
    rw [isReadable, Bool.and_eq_true] at h
    have ht := ih h.1 hf
    have hn : '(' ∉ Nat.toDigits 10 n := notMem_digits (by decide)
    rw [print]
    simp [ht, hn]
  | hpointer t ih =>
    have ht := ih h hf
    rw [print]
    simp [ht]
  | hfunction r ps v => cases hf

theorem allReadable_iff {ts : List LlvmType} :
    allReadable ts = true ↔ ∀ t ∈ ts, t.isReadable = true ∧ t.hasPair = false := by
  induction ts with
  | nil => simp [allReadable]
  | cons t ts ih => simp [allReadable, ih]

theorem anyPair_iff {ts : List LlvmType} : anyPair ts = true ↔ ∃ t ∈ ts, t.hasPair = true := by
  induction ts with
  | nil => simp [anyPair]
  | cons t ts ih => simp [anyPair, ih]

theorem mem_allNames {ts : List LlvmType} {n : List Char} :
    n ∈ allNames ts ↔ ∃ t ∈ ts, n ∈ t.names := by
  induction ts with
  | nil => simp [allNames]
  | cons t ts ih => simp [allNames, ih]

theorem length_pieces (ps : List LlvmType) (v : Bool) :
    (pieces ps v).length = ps.length + v.toNat := by
  rw [pieces, List.length_append, List.length_map]
  cases v <;> rfl

theorem print_function (r : LlvmType) (ps : List LlvmType) (v : Bool) : print (function r ps v) =
    print r ++ [' ', '('] ++ join [',', ' '] ((pieces ps v).map Prod.fst) ++ [')'] := by
  rw [print, pieces_fst]

/-- A part of the parameters is a part of the function type. -/
theorem infix_function {r : LlvmType} {ps : List LlvmType} {v : Bool}
    (h : s <:+: join [',', ' '] ((pieces ps v).map Prod.fst)) : s <:+: print (function r ps v) := by
  rw [print_function, List.append_assoc]
  exact h.trans ((List.prefix_append _ _).isInfix.trans (List.suffix_append _ _).isInfix)

theorem mem_pieces_fst {p : LlvmType} {ps : List LlvmType} (v : Bool) (h : p ∈ ps) :
    p.print ∈ (pieces ps v).map Prod.fst :=
  List.mem_map.mpr ⟨_, List.mem_append_left _ (List.mem_map_of_mem h), rfl⟩

/-- A comma in a parameter list is seen from outside. -/
theorem infix_of_hasPair {t : LlvmType} (h : t.hasPair = true) : [',', ' '] <:+: t.print := by
  induction t using induct with
  | hvoid | hint | hstruct => cases h
  | harray n t ih =>
    rw [print, List.append_assoc]
    exact (ih h).trans ((List.prefix_append _ _).isInfix.trans (List.suffix_append _ _).isInfix)
  | hpointer t ih => exact (ih h).trans (List.prefix_append _ _).isInfix
  | hfunction r ps v hr hps =>
    rw [hasPair, Bool.or_eq_true, Bool.or_eq_true, decide_eq_true_eq, anyPair_iff] at h
    obtain (hlen | hret) | ⟨p, hp, hpair⟩ := h
    · apply infix_function
      apply sep_infix_join
      rwa [List.length_map, length_pieces]
    · rw [print, List.append_assoc, List.append_assoc]
      exact (hr hret).trans (List.prefix_append _ _).isInfix
    · exact infix_function ((hps p hp hpair).trans (infix_join (mem_pieces_fst v hp)))

/-- A comma belongs to a parameter list. -/
theorem comma_notMem {t : LlvmType} (h : t.isReadable = true) (hf : t.hasPair = false) :
    ',' ∉ t.print := by
  induction t using induct with
  | hvoid => decide
  | hint w =>
    rw [print, List.mem_cons, not_or]
    exact ⟨by decide, notMem_digits (by decide)⟩
  | hstruct n =>
    rw [print, List.mem_cons, not_or]
    exact ⟨by decide, notMem_name h (by decide)⟩
  | harray n t ih =>
    rw [isReadable, Bool.and_eq_true] at h
    have ht := ih h.1 hf
    have hn : ',' ∉ Nat.toDigits 10 n := notMem_digits (by decide)
    rw [print]
    simp [ht, hn]
  | hpointer t ih =>
    have ht := ih h hf
    rw [print]
    simp [ht]
  | hfunction r ps v hr hps =>
    rw [isReadable, Bool.and_eq_true, Bool.and_eq_true, allReadable_iff] at h
    rw [hasPair, Bool.or_eq_false_iff, Bool.or_eq_false_iff, decide_eq_false_iff_not] at hf
    have hret := hr h.1.1 hf.1.2
    have hpiece : ∀ d ∈ (pieces ps v).map Prod.fst, ',' ∉ d := by
      intro d hd
      obtain ⟨q, hq, rfl⟩ := List.mem_map.mp hd
      rcases mem_pieces hq with ⟨p, hp, rfl⟩ | rfl
      · exact hps p hp (h.2 p hp).1 (h.2 p hp).2
      · decide
    have hshort : ((pieces ps v).map Prod.fst).length < 2 := by
      rw [List.length_map, length_pieces]
      omega
    have hjoin : ',' ∉ join [',', ' '] ((pieces ps v).map Prod.fst) := by
      match (pieces ps v).map Prod.fst, hpiece, hshort with
      | [], _, _ => decide
      | [d], hpiece, _ => exact hpiece d (List.mem_singleton_self d)
    rw [print_function]
    simp [hret, hjoin]

/-- Where the type that a function returns is cut off too early. -/
theorem splitOnce_function_iff {t : LlvmType} (h : t.isReadable = true) :
    splitOnce [' ', '('] t.print = none ↔ t.hasFunction = false := by
  constructor
  · intro hsplit
    rw [Bool.eq_false_iff]
    intro hf
    obtain ⟨p, hp⟩ := exists_splitOnce (infix_of_hasFunction hf).1
    rw [hp] at hsplit
    cases hsplit
  · exact fun hf => splitOnce_none (c := '(') (by decide) (paren_notMem h hf)

/-- Where a parameter is cut in two. -/
theorem splitOnce_pair_iff {t : LlvmType} (h : t.isReadable = true) :
    splitOnce [',', ' '] t.print = none ↔ t.hasPair = false := by
  constructor
  · intro hsplit
    rw [Bool.eq_false_iff]
    intro hf
    obtain ⟨p, hp⟩ := exists_splitOnce (infix_of_hasPair hf)
    rw [hp] at hsplit
    cases hsplit
  · exact fun hf => splitOnce_none (c := ',') (by decide) (comma_notMem h hf)

/-! ## The result -/

theorem isTrimmed_print (t : LlvmType) : IsTrimmed t.print := by
  have hends : ∀ {c d : Char} {u : List Char}, isSpace c = false → isSpace d = false →
      IsTrimmed (c :: u ++ [d]) := fun hc hd =>
    ⟨⟨_, rfl, hc⟩, _, List.getLast?_concat, hd⟩
  have hsnoc : ∀ {u v : List Char} {d : Char}, IsTrimmed u → isSpace d = false →
      IsTrimmed (u ++ v ++ [d]) := by
    intro u v d hu hd
    obtain ⟨c, hc, hcs⟩ := hu.head
    refine ⟨⟨c, ?_, hcs⟩, d, List.getLast?_concat, hd⟩
    rw [List.append_assoc, List.head?_append, hc]
    rfl
  induction t using induct with
  | hvoid => exact isTrimmed_of_all (List.cons_ne_nil _ _) (by simp [print, isSpace])
  | hint w =>
    refine isTrimmed_of_all (by simp [print]) fun c hc => ?_
    rcases List.mem_cons.mp hc with rfl | hmem
    · decide
    · exact not_isSpace_of_isDigit (Nat.isDigit_of_mem_toDigits (by decide) (by decide) hmem)
  | hstruct n =>
    rw [print, printName]
    split
    · exact hends (u := '"' :: n.flatMap escape) (by decide) (by decide)
    · next hq =>
      refine isTrimmed_of_all (List.cons_ne_nil _ _) fun c hc => ?_
      rcases List.mem_cons.mp hc with rfl | hmem
      · decide
      · rcases plain_of_not_needsQuotes (Bool.eq_false_iff.mpr hq) hmem with h | rfl | rfl | rfl
        · exact not_isSpace_of_isAlphanum h
        all_goals decide
  | harray n t ih =>
    rw [print, List.cons_append, List.cons_append]
    exact hends (by decide) (by decide)
  | hpointer t ih =>
    rw [print, ← List.append_nil t.print]
    exact hsnoc ih (by decide)
  | hfunction r ps v hr hps =>
    rw [print, List.append_assoc r.print]
    exact hsnoc hr (by decide)

theorem resists_pieces {ps : List LlvmType} {v : Bool} {q : List Char × IType}
    (h : q ∈ pieces ps v) : Resists ctx q.1 q.2 := by
  rcases mem_pieces h with ⟨p, -, rfl⟩ | rfl
  · exact resists p
  · exact resists_of_no_delimiter (by simp [IsDelimiter])

/-- The arguments come back if each part is one parameter and comes back. -/
theorem parseArgs_pieces {ps : List LlvmType} {v : Bool} :
    parseArgs (parseType ctx) (join [',', ' '] ((pieces ps v).map Prod.fst)) =
        .ok ((pieces ps v).map Prod.snd) ↔
      ∀ p ∈ ps, splitOnce [',', ' '] p.print = none ∧ parseType ctx p.print = .ok p.toIType := by
  have hdots : splitOnce [',', ' '] ['.', '.', '.'] = none ∧
      parseType ctx ['.', '.', '.'] = .ok .varArg := by
    refine ⟨by decide, ?_⟩
    rw [parseType_eq]
    rfl
  have hall : (∀ q ∈ pieces ps v, splitOnce [',', ' '] q.1 = none ∧
      parseType ctx q.1 = .ok q.2) ↔
        ∀ p ∈ ps, splitOnce [',', ' '] p.print = none ∧
          parseType ctx p.print = .ok p.toIType := by
    constructor
    · exact fun h p hp => h _ (List.mem_append_left _ (List.mem_map_of_mem hp))
    · intro h q hq
      rcases mem_pieces hq with ⟨p, hp, rfl⟩ | rfl
      · exact h p hp
      · exact hdots
  rw [parseArgs]
  by_cases hnil : pieces ps v = []
  · rw [← hall, hnil]
    simp [join, strip]
  · obtain ⟨q, hq⟩ := List.exists_mem_of_ne_nil _ hnil
    have hchar : ∃ c ∈ q.1, isSpace c = false := by
      rcases mem_pieces hq with ⟨p, -, rfl⟩ | rfl
      · obtain ⟨c, hc, hns⟩ := (isTrimmed_print p).head
        exact ⟨c, List.mem_of_mem_head? hc, hns⟩
      · exact ⟨'.', by decide, by decide⟩
    obtain ⟨c, hc, hns⟩ := hchar
    have hstrip : strip (join [',', ' '] ((pieces ps v).map Prod.fst)) ≠ [] := by
      intro hstrip
      have hmem : c ∈ join [',', ' '] ((pieces ps v).map Prod.fst) :=
        (infix_join (List.mem_map_of_mem hq)).subset hc
      rw [isSpace_of_strip hstrip hmem] at hns
      cases hns
    rw [if_neg hstrip, mapM_splitPair_join hnil fun q hq => resists_pieces hq, hall]

theorem parseType_function_iff {r : LlvmType} {ps : List LlvmType} {v : Bool} :
    parseType ctx (print (function r ps v)) = .ok (toIType (function r ps v)) ↔
      splitOnce [' ', '('] r.print = none ∧ parseType ctx r.print = .ok r.toIType ∧
        ∀ p ∈ ps, splitOnce [',', ' '] p.print = none ∧
          parseType ctx p.print = .ok p.toIType := by
  rw [← parseArgs_pieces (v := v), print_function, toIType, ← pieces_snd]
  constructor
  · intro hparse
    generalize hu : print r ++ [' ', '('] ++ join [',', ' '] ((pieces ps v).map Prod.fst) ++ [')'] =
      u at hparse
    cases parseType_spec hparse with
    | function hsplit hargs hret =>
      rename_i r' a
      rw [← hu, List.append_assoc, List.append_assoc] at hsplit
      cases hs : splitOnce [' ', '('] r.print with
      | some q =>
        rw [splitOnce_append hs] at hsplit
        obtain ⟨rfl, -⟩ := Prod.mk.inj (Option.some.inj hsplit)
        have hr := splitOnce_some hs
        rw [List.append_assoc] at hr
        exact absurd hret (resists r _ _ _ hr (by decide))
      | none =>
        rw [List.cons_append, List.cons_append, List.nil_append, splitOnce_pair (by decide) hs]
          at hsplit
        obtain ⟨rfl, ha⟩ := Prod.mk.inj (Option.some.inj hsplit)
        rw [List.append_cancel_right ha]
        exact ⟨rfl, hret, hargs⟩
  · rintro ⟨hsplit, hret, hargs⟩
    exact parseType_function hsplit hret hargs

/-- A printed type is parsed back just if it is readable. -/
theorem parseType_print_iff {t : LlvmType} (hdecl : ∀ n ∈ t.names, n ∈ ctx.declared) :
    parseType ctx t.print = .ok t.toIType ↔ t.isReadable = true := by
  induction t using induct with
  | hvoid =>
    rw [parseType_eq]
    exact iff_of_true rfl rfl
  | hint w => exact iff_of_true (parseType_int w) rfl
  | hstruct n =>
    rw [isReadable, Bool.not_eq_true', print, printName]
    cases hq : needsQuotes n with
    | true => exact iff_of_false (parseType_quoted_ne (.inl rfl)) nofun
    | false =>
      exact iff_of_true (parseType_struct hq (hdecl n (List.mem_singleton_self n))) rfl
  | harray n t ih =>
    have ht := ih hdecl
    rw [isReadable, Bool.and_eq_true, Bool.not_eq_true', print, toIType]
    constructor
    · intro hparse
      generalize hu : '[' :: Nat.toDigits 10 n ++ [' ', 'x', ' '] ++ t.print ++ [']'] = u at hparse
      cases parseType_spec hparse with
      | array hf hsplit hn helem =>
        have hw := List.append_cancel_right hu
        rw [List.cons_append, List.cons_append] at hw
        rw [← (List.cons.inj hw).2, List.append_assoc, List.cons_append,
          ← List.cons_append, splitOnce_head (notMem_digits (by decide))] at hsplit
        obtain ⟨-, rfl⟩ := Prod.mk.inj (Option.some.inj hsplit)
        refine ⟨ht.mp helem, Bool.eq_false_iff.mpr fun hfun => hf ?_⟩
        obtain ⟨hpair, hparen⟩ := infix_of_hasFunction hfun
        rw [LooksLikeFunction, ← hu]
        exact ⟨by simp, by simp [hpair.subset (show '(' ∈ [' ', '('] by decide)], by simp [hparen]⟩
    · rintro ⟨hread, hf⟩
      exact parseType_array (paren_notMem hread hf) (ht.mpr hread)
  | hpointer t ih =>
    have ht := ih hdecl
    rw [isReadable, ← ht, print, toIType]
    constructor
    · intro hparse
      generalize hu : t.print ++ ['*'] = u at hparse
      cases parseType_spec hparse with
      | pointer htarget => rwa [List.append_cancel_right hu]
    · exact parseType_pointer
  | hfunction r ps v hr hps =>
    rw [parseType_function_iff, isReadable, Bool.and_eq_true, Bool.and_eq_true, Bool.not_eq_true',
      allReadable_iff, hr fun n hn => hdecl n (List.mem_append_left _ hn)]
    have hparam : ∀ p ∈ ps, parseType ctx p.print = .ok p.toIType ↔ p.isReadable = true :=
      fun p hp => hps p hp fun n hn =>
        hdecl n (List.mem_append_right _ (mem_allNames.mpr ⟨p, hp, hn⟩))
    constructor
    · rintro ⟨hsplit, hret, hargs⟩
      refine ⟨⟨hret, (splitOnce_function_iff hret).mp hsplit⟩, fun p hp => ?_⟩
      have hread := (hparam p hp).mp (hargs p hp).2
      exact ⟨hread, (splitOnce_pair_iff hread).mp (hargs p hp).1⟩
    · rintro ⟨⟨hret, hf⟩, hargs⟩
      refine ⟨(splitOnce_function_iff hret).mpr hf, hret, fun p hp => ?_⟩
      obtain ⟨hread, hpair⟩ := hargs p hp
      exact ⟨(splitOnce_pair_iff hread).mpr hpair, (hparam p hp).mpr hread⟩

/-! ## Definitions -/

/-- The fields of a definition, where they are separated. -/
theorem mapM_fields_iff {t : LlvmType} {ts : List LlvmType}
    (hdecl : ∀ n ∈ allNames (t :: ts), n ∈ ctx.declared) :
    (splitPair ',' ' ' (strip (join [',', ' '] (printAll (t :: ts)) ++ [' ']))).mapM
        (parseType ctx) = .ok (toITypes (t :: ts)) ↔
      ∀ p ∈ t :: ts, p.isReadable = true ∧ p.hasPair = false := by
  have hfst : (pieces (t :: ts) false).map Prod.fst = printAll (t :: ts) := by
    rw [pieces_fst, if_neg Bool.false_ne_true, List.append_nil]
  have hsnd : (pieces (t :: ts) false).map Prod.snd = toITypes (t :: ts) := by
    rw [pieces_snd, if_neg Bool.false_ne_true, List.append_nil]
  have htrimmed : IsTrimmed (join [',', ' '] (printAll (t :: ts))) := by
    rw [← hfst]
    apply IsTrimmed.join
    · exact List.cons_ne_nil _ _
    · intro d hd
      obtain ⟨q, hq, rfl⟩ := List.mem_map.mp hd
      rcases mem_pieces hq with ⟨p, -, rfl⟩ | rfl
      · exact isTrimmed_print p
      · exact isTrimmed_of_all (List.cons_ne_nil _ _) (by simp [isSpace])
  have hparse : ∀ p ∈ t :: ts, parseType ctx p.print = .ok p.toIType ↔ p.isReadable = true :=
    fun p hp => parseType_print_iff fun n hn => hdecl n (mem_allNames.mpr ⟨p, hp, hn⟩)
  have hne : pieces (t :: ts) false ≠ [] := List.cons_ne_nil _ _
  rw [htrimmed.strip_append, ← hfst, ← hsnd, mapM_splitPair_join hne fun q hq => resists_pieces hq]
  constructor
  · intro h p hp
    obtain ⟨hsplit, hread⟩ := h _ (List.mem_append_left _ (List.mem_map_of_mem hp))
    have hread := (hparse p hp).mp hread
    exact ⟨hread, (splitOnce_pair_iff hread).mp hsplit⟩
  · intro h q hq
    obtain ⟨p, hp, rfl⟩ | hdots := List.mem_append.mp hq |>.imp List.mem_map.mp id
    · exact ⟨(splitOnce_pair_iff (h p hp).1).mpr (h p hp).2, (hparse p hp).mpr (h p hp).1⟩
    · cases hdots

/-- A name in quotes is read with the quotes. -/
theorem splitOnce_quoted_ne {rest fields : List Char} (hq : needsQuotes n = true) :
    splitOnce [' ', '=', ' '] (print (struct n) ++ rest) ≠ some ('%' :: n, fields) := by
  intro hsplit
  have hs := splitOnce_some hsplit
  rw [print, printName, if_pos hq, List.append_assoc, List.cons_append, List.cons_append] at hs
  have hname := (List.cons.inj hs).2
  rcases append_cons_cases hname with ⟨t', ht'⟩ | ⟨w', hw', -⟩
  · exact quoted_ne (by decide) ht'
  · have hlen := congrArg List.length hw'
    have hle := length_le_escape n
    simp only [List.length_cons, List.length_append, List.length_nil] at hlen
    omega

theorem splitOnce_definition {r : List Char} (hq : needsQuotes n = false) :
    splitOnce [' ', '=', ' '] (print (struct n) ++ (' ' :: ['=', ' '] ++ r)) =
      some ('%' :: n, r) := by
  have hspace : ' ' ∉ '%' :: printName n := by
    rw [List.mem_cons, not_or]
    exact ⟨by decide, notMem_name (by rw [isReadable, hq]; rfl) (by decide)⟩
  rw [print, splitOnce_head hspace, printName, hq]
  rfl

/-- A struct that was made from its definition. -/
structure ReadsDefinition (ctx : TypeTables) (n rest : List Char) (Ts : List IType) : Prop where
  name : needsQuotes n = false
  notFunction : ¬LooksLikeFunction
    (print (struct n) ++ [' ', '=', ' ', 't', 'y', 'p', 'e', ' '] ++ rest)
  brace : ['t', 'y', 'p', 'e', ' ', '{'].isPrefixOf (['t', 'y', 'p', 'e', ' '] ++ rest) = true
  fields : (splitPair ',' ' ' (strip (((['t', 'y', 'p', 'e', ' '] ++ rest).drop 7).dropLast))).mapM
    (parseType ctx) = .ok Ts

theorem append_definition (u rest : List Char) :
    u ++ [' ', '=', ' ', 't', 'y', 'p', 'e', ' '] ++ rest =
      u ++ (' ' :: ['=', ' '] ++ (['t', 'y', 'p', 'e', ' '] ++ rest)) := by
  rw [List.append_assoc]
  rfl

theorem readsDefinition {rest : List Char}
    (h : parseType ctx (print (struct n) ++ [' ', '=', ' ', 't', 'y', 'p', 'e', ' '] ++ rest) =
      .ok (.definition n Ts)) : ReadsDefinition ctx n rest Ts := by
  generalize hs : print (struct n) ++ [' ', '=', ' ', 't', 'y', 'p', 'e', ' '] ++ rest = s at h
  cases parseType_spec h with
  | definition hf hsplit hbrace hmap =>
    subst hs
    rw [append_definition] at hsplit
    cases hq : needsQuotes n with
    | true => exact absurd hsplit (splitOnce_quoted_ne hq)
    | false =>
      rw [splitOnce_definition hq] at hsplit
      obtain ⟨-, rfl⟩ := Prod.mk.inj (Option.some.inj hsplit)
      exact ⟨hq, hf, hbrace, hmap⟩

/-- What is between the braces of a definition. -/
theorem drop_braces (u : List Char) :
    ((['t', 'y', 'p', 'e', ' '] ++ (['{', ' '] ++ u ++ [' ', '}'])).drop 7).dropLast =
      u ++ [' '] := by
  change (u ++ [' ', '}']).dropLast = u ++ [' ']
  rw [List.dropLast_append_of_ne_nil (List.cons_ne_nil _ _)]
  rfl

theorem paren_notMem_fields {ts : List LlvmType}
    (h : ∀ t ∈ ts, t.isReadable = true ∧ t.hasFunction = false) :
    '(' ∉ join [',', ' '] (printAll ts) := by
  induction ts with
  | nil => exact List.not_mem_nil
  | cons t ts ih =>
    have ht := h t (List.mem_cons_self ..)
    have hparen := paren_notMem ht.1 ht.2
    have hrest := ih fun u hu => h u (List.mem_cons_of_mem t hu)
    cases ts with
    | nil => exact hparen
    | cons u ts =>
      rw [printAll, printAll, join_cons_cons]
      rw [printAll] at hrest
      simp [hparen, hrest]

theorem infix_fields {t : LlvmType} {ts : List LlvmType} (h : t ∈ ts) :
    t.print <:+: join [',', ' '] (printAll ts) := by
  have hmem := mem_pieces_fst false h
  rw [pieces_fst, if_neg Bool.false_ne_true, List.append_nil] at hmem
  exact infix_join hmem

theorem hasPair_eq_false {t : LlvmType} (h : t.hasFunction = false) : t.hasPair = false := by
  induction t using induct with
  | hvoid | hint | hstruct => rfl
  | harray n t ih => exact ih h
  | hpointer t ih => exact ih h
  | hfunction r ps v => cases h

/-- A struct with fields is parsed back if they are and have no function type. -/
theorem parseType_fields_iff {t : LlvmType} {ts : List LlvmType} (hq : needsQuotes n = false)
    (hdecl : ∀ n ∈ allNames (t :: ts), n ∈ ctx.declared) :
    parseType ctx (print (struct n) ++ [' ', '=', ' ', 't', 'y', 'p', 'e', ' '] ++
        (['{', ' '] ++ join [',', ' '] (printAll (t :: ts)) ++ [' ', '}'])) =
        .ok (.definition n (toITypes (t :: ts))) ↔
      ∀ p ∈ t :: ts, p.isReadable = true ∧ p.hasFunction = false := by
  have hfields := mapM_fields_iff hdecl
  rw [← drop_braces] at hfields
  constructor
  · intro hparse p hp
    have hreads := readsDefinition hparse
    refine ⟨(hfields.mp hreads.fields p hp).1, Bool.eq_false_iff.mpr fun hfun => ?_⟩
    apply hreads.notFunction
    obtain ⟨hpair, hparen⟩ := infix_of_hasFunction hfun
    have hin := infix_fields hp
    have hspace := hin.subset (hpair.subset (List.mem_cons_self ..))
    have hopen := hin.subset (hpair.subset (List.mem_cons_of_mem _ (List.mem_singleton_self _)))
    have hclose := hin.subset hparen
    rw [LooksLikeFunction]
    simp [hopen, hclose]
  · intro h
    rw [append_definition]
    have hname : ∀ c : Char, ¬(c.isAlphanum ∨ c = '-' ∨ c = '.' ∨ c = '_') → c ≠ '%' →
        c ∉ print (struct n) := by
      intro c hc hne hmem
      rcases List.mem_cons.mp hmem with rfl | hmem
      · exact hne rfl
      · exact notMem_name (by rw [isReadable, hq]; rfl) hc hmem
    have hopen := hname '(' (by decide) (by decide)
    have hparen := paren_notMem_fields h
    have hmap := hfields.mpr fun p hp => ⟨(h p hp).1, hasPair_eq_false (h p hp).2⟩
    have hsplit := splitOnce_definition (r := ['t', 'y', 'p', 'e', ' '] ++
      (['{', ' '] ++ join [',', ' '] (printAll (t :: ts)) ++ [' ', '}'])) hq
    have hlast : ∀ v u : List Char, (v ++ (u ++ [' ', '}'])).getLast? = some '}' := by
      intro v u
      rw [List.getLast?_append, List.getLast?_append]
      rfl
    refine parseType_named rfl ?_ ?_ ?_ hsplit rfl (hlast _ _) hmap
    · simp [hopen, hparen]
    · rw [← List.append_assoc, ← List.append_assoc]
      exact hlast _ _
    · exact contains_iff.mpr ⟨print (struct n), ['{', ' '] ++ join [',', ' '] (printAll (t :: ts)) ++
        [' ', '}'], by simp⟩

/-- A struct without fields is not parsed back. -/
theorem not_readsDefinition_empty : ¬ReadsDefinition ctx n ['{', '}'] Ts := by
  intro h
  have hempty : parseType ctx [] = .error .assertion := rfl
  have hfields := h.fields
  rw [show splitPair ',' ' ' (strip (((['t', 'y', 'p', 'e', ' '] ++ ['{', '}']).drop 7).dropLast)) =
    [[]] from rfl, List.mapM_cons, hempty] at hfields
  cases hfields

theorem parseType_definition_iff {body : Definition}
    (hdecl : ∀ n ∈ allNames (body.fields.getD []), n ∈ ctx.declared) :
    parseType ctx (print (struct n) ++ [' ', '=', ' ', 't', 'y', 'p', 'e', ' '] ++ body.print) =
        .ok (.definition n (toITypes (body.fields.getD []))) ↔
      needsQuotes n = false ∧ body.isReadable = true := by
  obtain ⟨fields, isPacked⟩ := body
  cases fields with
  | none => exact iff_of_false (fun h => nomatch (readsDefinition h).brace) (fun h => nomatch h.2)
  | some ts =>
    cases ts with
    | nil =>
      refine iff_of_false (fun h => ?_) (fun h => nomatch h.2)
      cases isPacked with
      | true => exact nomatch (readsDefinition h).brace
      | false => exact not_readsDefinition_empty (readsDefinition h)
    | cons t ts =>
      cases isPacked with
      | true => exact iff_of_false (fun h => nomatch (readsDefinition h).brace) (fun h => nomatch h.2)
      | false =>
        cases hq : needsQuotes n with
        | true =>
          refine iff_of_false (fun h => ?_) (fun h => nomatch h.1)
          rw [(readsDefinition h).name] at hq
          cases hq
        | false =>
          have hall : (Definition.mk (some (t :: ts)) false).isReadable = true ↔
              ∀ p ∈ t :: ts, p.isReadable = true ∧ p.hasFunction = false := by
            simp [Definition.isReadable]
          rw [hall, eq_self, true_and]
          exact parseType_fields_iff hq hdecl

/-- The type of a value is parsed back just if it is readable. -/
theorem parseType_nameType_iff {definitions : List Char → Definition} {t : LlvmType}
    (hdecl : ∀ n ∈ t.valueNames definitions, n ∈ ctx.declared) :
    parseType ctx (t.nameType definitions) = .ok (t.valueType definitions) ↔
      t.isReadableValue definitions = true := by
  cases t with
  | struct n =>
    rw [isReadableValue, Bool.and_eq_true, Bool.not_eq_true']
    exact parseType_definition_iff hdecl
  | void | int | array | pointer | function => exact parseType_print_iff hdecl

/-- A definition and a function pointer: `%q = type { %t*, [4 x i8] }` and `%t* (%q*, ...)*`. -/
theorem parseType_nameType_samples :
    let ctx : TypeTables := ⟨[['q'], ['t']], fun _ => none⟩
    let definitions : List Char → Definition :=
      fun _ => ⟨some [pointer (struct ['t']), array 4 (int 8)], false⟩
    let send := pointer (function (pointer (struct ['t'])) [pointer (struct ['q'])] true)
    parseType ctx (nameType definitions (struct ['q'])) =
        .ok (valueType definitions (struct ['q'])) ∧
      parseType ctx (nameType definitions send) = .ok (valueType definitions send) :=
  ⟨(parseType_nameType_iff (by decide)).mpr (by decide),
    (parseType_nameType_iff (by decide)).mpr (by decide)⟩

/-- The parenthesis is found before the bracket in `[4 x void (i32)*]`. -/
theorem exists_parseType_nameType_ne :
    ∃ (ctx : TypeTables) (definitions : List Char → Definition) (t : LlvmType),
      (∀ n ∈ t.valueNames definitions, n ∈ ctx.declared) ∧
        parseType ctx (t.nameType definitions) ≠ .ok (t.valueType definitions) := by
  refine ⟨⟨[], fun _ => none⟩, fun _ => ⟨none, false⟩,
    array 4 (pointer (function void [int 32] false)), by decide, ?_⟩
  have herror : parseType ⟨[], fun _ => none⟩ (nameType (fun _ => ⟨none, false⟩)
      (array 4 (pointer (function void [int 32] false)))) = .error .assertion := rfl
  rw [herror]
  nofun

end LlvmType

end L4Thread.Irpy
