import MonkeyLang.Proofs.Data.Json.Grammar

/-!
# Reading JSON

A reader for JSON texts that never goes back: what a text that has begun can be is told by its next character.
It reads every text of the grammar as the data that the text stands for, so no text stands for two. Of what is
no JSON text it may read some as well.
-/

namespace MonkeyLang.Json

/-! ## The reader -/

def skip (cs : List Char) : List Char :=
  cs.dropWhile isSpace

def isNumeral (c : Char) : Bool :=
  c.isDigit || c ∈ ['-', '+', '.', 'e', 'E']

def numberData (decimal : List Char → Data) (cs : List Char) : Option Data :=
  if cs = [] then none
  else if cs.all Char.isDigit then some (.integer (magnitude cs))
  else if cs.head? = some '-' ∧ cs.tail.all Char.isDigit then some (.integer (-magnitude cs.tail))
  else some (decimal cs)

def readNumber (decimal : List Char → Data) (cs : List Char) : Option (Data × List Char) := do
  return (← numberData decimal (cs.takeWhile isNumeral), cs.dropWhile isNumeral)

def readUnit (cs : List Char) : Option (Nat × List Char) := do
  return (← codeUnit? (cs.take 4), cs.drop 4)

def readChar : List Char → Option (Char × List Char)
  | [] => none
  | '\\' :: 'u' :: cs => do
    let (n, cs) ← readUnit cs
    if isHigh n then
      match cs with
      | '\\' :: 'u' :: cs => do
        let (low, cs) ← readUnit cs
        return (paired n low, cs)
      | _ => none
    else return (Char.ofNat n, cs)
  | '\\' :: e :: cs => (shortEscapes.lookup e).map (·, cs)
  | c :: cs => if isPlain c then some (c, cs) else none

def readText : Nat → List Char → Option (List Char × List Char)
  | 0, _ => none
  | _ + 1, '"' :: cs => some ([], cs)
  | rounds + 1, cs => do
    let (c, cs) ← readChar cs
    let (text, cs) ← readText rounds cs
    return (c :: text, cs)

def readItems {α : Type} (item : List Char → Option (α × List Char)) (close : Char) :
    Nat → List Char → Option (List α × List Char)
  | 0, _ => none
  | rounds + 1, cs => do
    let (a, cs) ← item (skip cs)
    match skip cs with
    | [] => none
    | c :: cs =>
      if c = close then return ([a], cs)
      else if c = ',' then do
        let (as, cs) ← readItems item close rounds cs
        return (a :: as, cs)
      else none

def readEnclosed {α : Type} (item : List Char → Option (α × List Char)) (close : Char) (cs : List Char) :
    Option (List α × List Char) :=
  if (skip cs).head? = some close then some ([], (skip cs).tail) else readItems item close cs.length cs

def readMember {α : Type} (value : List Char → Option (α × List Char)) :
    List Char → Option ((String × α) × List Char)
  | '"' :: cs => do
    let (key, cs) ← readText cs.length cs
    match skip cs with
    | ':' :: cs => do
      let (a, cs) ← value (skip cs)
      return ((String.ofList key, a), cs)
    | _ => none
  | _ => none

def readValue (decimal : List Char → Data) : Nat → List Char → Option (Data × List Char)
  | 0, _ => none
  | depth + 1, cs =>
    match cs with
    | 'n' :: 'u' :: 'l' :: 'l' :: cs => some (.null, cs)
    | 't' :: 'r' :: 'u' :: 'e' :: cs => some (.boolean true, cs)
    | 'f' :: 'a' :: 'l' :: 's' :: 'e' :: cs => some (.boolean false, cs)
    | '"' :: cs => do
      let (text, cs) ← readText cs.length cs
      return (.string (String.ofList text), cs)
    | '[' :: cs => do
      let (items, cs) ← readEnclosed (readValue decimal depth) ']' cs
      return (.list items, cs)
    | '\x7b' :: cs => do
      let (fields, cs) ← readEnclosed (readMember (readValue decimal depth)) '\x7d' cs
      return (.map fields, cs)
    | cs => readNumber decimal cs

def read (decimal : List Char → Data) (text : String) : Option Data := do
  let cs := text.toList
  let (data, rest) ← readValue decimal (cs.length + 1) (skip cs)
  if skip rest = [] then return data else none

/-! ## Numbers -/

variable {decimal : List Char → Data}

def Stops (cs : List Char) : Prop :=
  ∀ c ∈ cs.head?, isNumeral c = false

theorem span_append {p : Char → Bool} {cs rest : List Char} (h : ∀ c ∈ cs, p c = true)
    (hrest : ∀ c ∈ rest.head?, p c = false) :
    (cs ++ rest).takeWhile p = cs ∧ (cs ++ rest).dropWhile p = rest := by
  rw [List.takeWhile_append_of_pos h, List.dropWhile_append_of_pos h]
  cases rest with
  | nil => simp
  | cons c rest =>
    have hc := hrest c rfl
    simp [hc]

theorem Digits.numeral {cs : List Char} (h : Digits cs) : ∀ c ∈ cs, isNumeral c = true := by
  intro c mem
  simp [isNumeral, h.2 c mem]

theorem Exponent.numeral {cs : List Char} (h : Exponent cs) : ∀ c ∈ cs, isNumeral c = true := by
  obtain @⟨e, sign, digits, he, hsign, hdigits⟩ := h
  rw [List.forall_mem_cons, List.forall_mem_append]
  refine ⟨?_, ?_, hdigits.numeral⟩
  · rcases he with rfl | rfl <;> rfl
  · rcases hsign with rfl | rfl | rfl <;> simp [isNumeral]

theorem Fractional.numeral {cs : List Char} (h : Fractional cs) : ∀ c ∈ cs, isNumeral c = true := by
  cases h with
  | fraction hdigits => exact List.forall_mem_cons.mpr ⟨by decide, hdigits.numeral⟩
  | exponent h => exact h.numeral
  | both hdigits h =>
    rw [List.forall_mem_cons, List.forall_mem_append]
    exact ⟨by decide, hdigits.numeral, h.numeral⟩

theorem Fractional.exists_not_digit {cs : List Char} (h : Fractional cs) : ∃ c ∈ cs, c.isDigit = false := by
  cases h with
  | fraction | both => exact ⟨'.', List.mem_cons_self, by decide⟩
  | exponent h =>
    obtain @⟨e, sign, digits, he, -, -⟩ := h
    refine ⟨e, List.mem_cons_self, ?_⟩
    rcases he with rfl | rfl <;> rfl

theorem Number.numeral {cs : List Char} {data : Data} (h : Number decimal cs data) :
    ∀ c ∈ cs, isNumeral c = true := by
  cases h with
  | natural h => exact h.1.numeral
  | negative h => exact List.forall_mem_cons.mpr ⟨by decide, h.1.numeral⟩
  | @decimal sign whole more hsign hwhole hmore =>
    rw [List.forall_mem_append, List.forall_mem_append]
    refine ⟨⟨?_, hwhole.1.numeral⟩, hmore.numeral⟩
    rcases hsign with rfl | rfl <;> simp [isNumeral]

theorem Whole.exists_cons {cs : List Char} (h : Whole cs) : ∃ c rest, cs = c :: rest ∧ c.isDigit = true := by
  obtain ⟨⟨hne, hdigits⟩, -⟩ := h
  obtain ⟨c, rest, rfl⟩ := List.exists_cons_of_ne_nil hne
  exact ⟨c, rest, rfl, hdigits c List.mem_cons_self⟩

theorem not_all_digits {cs more : List Char} (h : Fractional more) : ¬ (cs ++ more).all Char.isDigit = true := by
  obtain ⟨c, mem, hc⟩ := h.exists_not_digit
  rw [Bool.not_eq_true, List.all_eq_false]
  exact ⟨c, List.mem_append_right _ mem, by simp [hc]⟩

theorem numberData_of_number {cs : List Char} {data : Data} (h : Number decimal cs data) :
    numberData decimal cs = some data := by
  cases h with
  | natural h => rw [numberData, if_neg h.1.1, if_pos (List.all_eq_true.mpr h.1.2)]
  | @negative digits h =>
    have hminus : ¬ ('-' :: digits).all Char.isDigit = true := by simp
    rw [numberData, if_neg (List.cons_ne_nil _ _), if_neg hminus, if_pos ⟨rfl, List.all_eq_true.mpr h.1.2⟩]
    rfl
  | @decimal sign whole more hsign hwhole hmore =>
    obtain ⟨c, rest, rfl, -⟩ := hwhole.exists_cons
    -- With a sign or without one, what makes the number more than an integer is behind the first character.
    have htail : ∃ front, (sign ++ c :: rest ++ more).tail = front ++ more := by
      rcases hsign with rfl | rfl
      · exact ⟨rest, rfl⟩
      · exact ⟨c :: rest, rfl⟩
    obtain ⟨front, htail⟩ := htail
    have htail : ¬ (sign ++ c :: rest ++ more).tail.all Char.isDigit = true := htail ▸ not_all_digits hmore
    rw [numberData, if_neg (by simp), if_neg (not_all_digits hmore), if_neg fun h => htail h.2]

theorem readNumber_append {cs rest : List Char} {data : Data} (h : Number decimal cs data) (hrest : Stops rest) :
    readNumber decimal (cs ++ rest) = some (data, rest) := by
  obtain ⟨htake, hdrop⟩ := span_append h.numeral hrest
  rw [readNumber, htake, hdrop, numberData_of_number h]
  rfl

/-! ## Strings -/

theorem readUnit_append {digits : List Char} {n : Nat} (h : codeUnit? digits = some n) (rest : List Char) :
    readUnit (digits ++ rest) = some (n, rest) := by
  unfold codeUnit? at h
  split at h
  · simp only [readUnit, List.cons_append, List.nil_append, List.take_succ_cons, List.take_zero, List.drop_succ_cons,
      List.drop_zero, codeUnit?, h]
    rfl
  · cases h

theorem readChar_append {spelling : List Char} {c : Char} (h : Spelled spelling c) (rest : List Char) :
    readChar (spelling ++ rest) = some (c, rest) := by
  cases h with
  | plain h =>
    have hc : c ≠ '\\' := by
      rintro rfl
      cases h
    rw [List.singleton_append, readChar, if_pos h]
    · exact fun _ heq _ => hc heq
    · exact fun _ _ heq _ => hc heq
  | short h =>
    simp only [shortEscapes, List.mem_cons, Prod.mk.injEq, List.not_mem_nil, or_false] at h
    rcases h with ⟨rfl, rfl⟩ | ⟨rfl, rfl⟩ | ⟨rfl, rfl⟩ | ⟨rfl, rfl⟩ | ⟨rfl, rfl⟩ | ⟨rfl, rfl⟩ | ⟨rfl, rfl⟩ | ⟨rfl, rfl⟩ <;>
      rfl
  | unit hunit hhigh hlow => simp [readChar, readUnit_append hunit, hhigh]
  | pair hunit hhigh hunit' hlow =>
    simp [readChar, readUnit_append hunit, readUnit_append hunit', hhigh]

theorem Spelled.exists_cons {spelling : List Char} {c : Char} (h : Spelled spelling c) :
    ∃ first rest, spelling = first :: rest ∧ first ≠ '"' := by
  cases h with
  | plain h =>
    refine ⟨c, [], rfl, ?_⟩
    rintro rfl
    cases h
  | short | unit | pair => exact ⟨'\\', _, rfl, by decide⟩

theorem readText_append {body text : List Char} (h : Quoted body text) {rounds : Nat} (hrounds : body.length < rounds)
    (rest : List Char) : readText rounds (body ++ '"' :: rest) = some (text, rest) := by
  induction h generalizing rounds with
  | nil =>
    obtain ⟨rounds, rfl⟩ := Nat.exists_eq_succ_of_ne_zero (Nat.ne_zero_of_lt hrounds)
    rfl
  | @cons spelling body text c hspelled _ ih =>
    obtain ⟨rounds, rfl⟩ := Nat.exists_eq_succ_of_ne_zero (Nat.ne_zero_of_lt hrounds)
    obtain ⟨first, more, rfl, hfirst⟩ := hspelled.exists_cons
    have hchar := readChar_append hspelled (body ++ '"' :: rest)
    have hlength : body.length < rounds := by
      simp only [List.length_append, List.length_cons] at hrounds
      omega
    rw [List.append_assoc, List.cons_append, readText]
    · rw [← List.cons_append, hchar]
      simp [ih hlength]
    · exact fun _ heq => hfirst (List.cons.inj heq).1

/-! ## Items -/

/-- What a value may begin with: neither a space nor a closing bracket. -/
def Begins (cs : List Char) : Prop :=
  ∃ c rest, cs = c :: rest ∧ isSpace c = false ∧ c ≠ ']' ∧ c ≠ '\x7d'

theorem isSpace_iff {c : Char} : isSpace c = true ↔ c = ' ' ∨ c = '\t' ∨ c = '\n' ∨ c = '\r' := by
  simp [isSpace, or_assoc]

theorem skip_append {gap rest : List Char} (h : Spaces gap) (hrest : ∀ c ∈ rest.head?, isSpace c = false) :
    skip (gap ++ rest) = rest :=
  (span_append h hrest).2

theorem Begins.skip_append {gap cs : List Char} (h : Begins cs) (hgap : Spaces gap) (rest : List Char) :
    skip (gap ++ (cs ++ rest)) = cs ++ rest := by
  obtain ⟨c, more, rfl, hc, -⟩ := h
  exact Json.skip_append hgap (by simpa using hc)

theorem Spaces.stops {gap rest : List Char} (h : Spaces gap) (hrest : Stops rest) : Stops (gap ++ rest) := by
  cases gap with
  | nil => exact hrest
  | cons space gap =>
    intro c mem
    obtain rfl := Option.some.inj mem
    rcases isSpace_iff.mp (h space List.mem_cons_self) with rfl | rfl | rfl | rfl <;> rfl

section Items

variable {α : Type} {P : List Char → α → Prop} {item : List Char → Option (α × List Char)} {close : Char}

def Reads (P : List Char → α → Prop) (item : List Char → Option (α × List Char)) (size : Nat) : Prop :=
  ∀ body a rest, P body a → body.length ≤ size → Stops rest → item (body ++ rest) = some (a, rest)

theorem Listed.length_le {cs : List Char} {as : List α} (h : Listed P cs as) : as.length ≤ cs.length + 1 := by
  induction h with
  | one => simp
  | more _ _ ih =>
    simp only [List.length_append, List.length_cons]
    omega

theorem Listed.exists_first {cs : List Char} {as : List α} (h : Listed P cs as) :
    ∃ first a rest, P first a ∧ cs = first ++ rest := by
  cases h with
  | one h => exact ⟨_, _, [], h, (List.append_nil _).symm⟩
  | more h _ => exact ⟨_, _, _, h, rfl⟩

theorem Padded.read (hbegins : ∀ body a, P body a → Begins body) {cs : List Char} {a : α} (h : Padded P cs a)
    (hitem : Reads P item cs.length) {stop : Char} (hstop : stop = ',' ∨ stop = ']' ∨ stop = '\x7d') (rest : List Char) :
    ∃ gap, item (skip (cs ++ stop :: rest)) = some (a, gap ++ stop :: rest) ∧
      skip (gap ++ stop :: rest) = stop :: rest := by
  have hsolid : isSpace stop = false ∧ isNumeral stop = false := by
    rcases hstop with rfl | rfl | rfl <;> exact ⟨rfl, rfl⟩
  obtain @⟨before, body, behind, _, hbefore, hbody, hbehind⟩ := h
  have hlength : body.length ≤ (before ++ (body ++ behind)).length := by
    simp only [List.length_append]
    omega
  refine ⟨behind, ?_, skip_append hbehind (by simpa using hsolid.1)⟩
  rw [List.append_assoc, List.append_assoc, (hbegins body a hbody).skip_append hbefore]
  exact hitem body a _ hbody hlength (hbehind.stops (by simpa [Stops] using hsolid.2))

theorem Reads.mono {size size' : Nat} (h : Reads P item size) (hle : size' ≤ size) : Reads P item size' :=
  fun body a rest hbody hlength => h body a rest hbody (Nat.le_trans hlength hle)

variable (hclose : close = ']' ∨ close = '\x7d') (hbegins : ∀ body a, P body a → Begins body)
include hclose hbegins

theorem readItems_append {cs : List Char} {as : List α} (h : Listed (Padded P) cs as)
    (hitem : Reads P item cs.length) {rounds : Nat} (hrounds : as.length ≤ rounds) (rest : List Char) :
    readItems item close rounds (cs ++ close :: rest) = some (as, rest) := by
  have hcomma : ',' ≠ close := by
    rcases hclose with rfl | rfl <;> decide
  induction h generalizing rounds with
  | one h =>
    obtain ⟨rounds, rfl⟩ := Nat.exists_eq_succ_of_ne_zero (Nat.ne_zero_of_lt hrounds)
    obtain ⟨gap, hread, hskip⟩ := h.read hbegins hitem (.inr hclose) rest
    simp [readItems, hread, hskip]
  | @more cs more a as h _ ih =>
    obtain ⟨rounds, rfl⟩ := Nat.exists_eq_succ_of_ne_zero (Nat.ne_zero_of_lt hrounds)
    have hlength : cs.length ≤ (cs ++ ',' :: more).length ∧ more.length ≤ (cs ++ ',' :: more).length := by
      simp only [List.length_append, List.length_cons]
      omega
    obtain ⟨gap, hread, hskip⟩ := h.read hbegins (hitem.mono hlength.1) (.inl rfl) (more ++ close :: rest)
    have hmore := ih (hitem.mono hlength.2) (Nat.le_of_succ_le_succ hrounds)
    rw [List.append_assoc, List.cons_append]
    simp [readItems, hread, hskip, hcomma, hmore]

theorem readEnclosed_append {cs : List Char} {as : List α} (h : Listed (Padded P) cs as)
    (hitem : Reads P item cs.length) (rest : List Char) :
    readEnclosed item close (cs ++ close :: rest) = some (as, rest) := by
  have hrounds : as.length ≤ (cs ++ close :: rest).length := by
    have hle := h.length_le
    simp only [List.length_append, List.length_cons]
    omega
  have hopen : (skip (cs ++ close :: rest)).head? ≠ some close := by
    obtain ⟨first, a, more, hpadded, rfl⟩ := h.exists_first
    obtain @⟨before, body, behind, _, hbefore, hbody, -⟩ := hpadded
    have hbody := hbegins body a hbody
    rw [List.append_assoc, List.append_assoc, List.append_assoc, hbody.skip_append hbefore]
    obtain ⟨c, tail, rfl, -, hc⟩ := hbody
    intro heq
    obtain rfl := Option.some.inj heq
    exact hclose.elim hc.1 hc.2
  rw [readEnclosed, if_neg hopen]
  exact readItems_append hclose hbegins h hitem hrounds rest

omit hbegins in
theorem readEnclosed_spaces {gap : List Char} (hgap : Spaces gap) (rest : List Char) :
    readEnclosed item close (gap ++ close :: rest) = some ([], rest) := by
  have hsolid : isSpace close = false := by
    rcases hclose with rfl | rfl <;> rfl
  have hskip : skip (gap ++ close :: rest) = close :: rest := skip_append hgap (by simpa using hsolid)
  simp [readEnclosed, hskip]

omit hclose in
theorem readMember_append {value : List Char → Option (α × List Char)} {size : Nat} (hvalue : Reads P value size) :
    Reads (Member P) (readMember value) size := by
  intro text entry rest h hsize hrest
  obtain @⟨key, name, before, behind, body, a, hkey, hbefore, hbehind, hbody⟩ := h
  have hlength : body.length ≤ size := by
    simp only [List.length_append, List.length_cons] at hsize
    omega
  have hname : readText (key ++ '"' :: (before ++ ':' :: (behind ++ (body ++ rest)))).length
      (key ++ '"' :: (before ++ ':' :: (behind ++ (body ++ rest)))) =
      some (name, before ++ ':' :: (behind ++ (body ++ rest))) := readText_append hkey (by simp) _
  have hcolon : skip (before ++ ':' :: (behind ++ (body ++ rest))) = ':' :: (behind ++ (body ++ rest)) :=
    skip_append hbefore (by simp [isSpace])
  have hread := hvalue body a rest hbody hlength hrest
  simp only [List.cons_append, List.append_assoc, readMember, hname, Option.bind_eq_bind, Option.bind_some, hcolon,
    (hbegins body a hbody).skip_append hbehind, hread]
  rfl

end Items

/-! ## Values -/

theorem Number.exists_cons {cs : List Char} {data : Data} (h : Number decimal cs data) :
    ∃ c rest, cs = c :: rest ∧ (c.isDigit = true ∨ c = '-') := by
  cases h with
  | natural h =>
    obtain ⟨c, rest, rfl, hc⟩ := h.exists_cons
    exact ⟨c, rest, rfl, .inl hc⟩
  | negative => exact ⟨'-', _, rfl, .inr rfl⟩
  | @decimal sign whole more hsign hwhole _ =>
    obtain ⟨c, rest, rfl, hc⟩ := hwhole.exists_cons
    rcases hsign with rfl | rfl
    · exact ⟨c, _, rfl, .inl hc⟩
    · exact ⟨'-', _, rfl, .inr rfl⟩

theorem Denotes.begins {cs : List Char} {data : Data} (h : Denotes decimal cs data) : Begins cs := by
  cases h with
  | number h =>
    obtain ⟨c, rest, rfl, hc⟩ := h.exists_cons
    refine ⟨c, rest, rfl, ?_, ?_⟩
    · cases hspace : isSpace c with
      | false => rfl
      | true => rcases isSpace_iff.mp hspace with rfl | rfl | rfl | rfl <;> exact absurd hc (by decide)
    · constructor <;> rintro rfl <;> exact absurd hc (by decide)
  | _ => exact ⟨_, _, rfl, by decide, by decide⟩

theorem Member.begins {α : Type} {P : List Char → α → Prop} {cs : List Char} {entry : String × α}
    (h : Member P cs entry) : Begins cs := by
  obtain ⟨-, -, -, -⟩ := h
  exact ⟨_, _, rfl, by decide, by decide⟩

theorem readValue_append {cs : List Char} {data : Data} (h : Denotes decimal cs data) {depth : Nat}
    (hdepth : cs.length < depth) {rest : List Char} (hrest : Stops rest) :
    readValue decimal depth (cs ++ rest) = some (data, rest) := by
  induction depth generalizing cs data rest with
  | zero => cases hdepth
  | succ depth ih =>
    -- What stands inside brackets is shorter than the whole, so it is read with one level less.
    have hvalue {size : Nat} (hsize : size < depth) : Reads (Denotes decimal) (readValue decimal depth) size :=
      fun body a rest hbody hlength hrest => ih hbody (Nat.lt_of_le_of_lt hlength hsize) hrest
    cases h with
    | null | true | false => rfl
    | number h =>
      have hnumber := readNumber_append h hrest
      obtain ⟨c, more, rfl, hc⟩ := h.exists_cons
      have hne {letter : Char} (h : ¬ (letter.isDigit = true ∨ letter = '-')) (heq : c = letter) : False :=
        h (heq ▸ hc)
      rw [List.cons_append] at hnumber ⊢
      rw [readValue]
      · exact hnumber
      all_goals
        intro _ heq
        exact hne (by decide) (List.cons.inj heq).1
    | @string body text h =>
      have htext : readText (body ++ '"' :: rest).length (body ++ '"' :: rest) = some (text, rest) :=
        readText_append h (by simp) rest
      rw [List.cons_append, List.append_assoc, List.singleton_append, readValue, htext]
      rfl
    | noItems hgap =>
      rw [List.cons_append, List.append_assoc, List.singleton_append, readValue,
        readEnclosed_spaces (by simp) hgap rest]
      rfl
    | @items cs items h =>
      simp only [List.length_cons, List.length_append, List.length_nil] at hdepth
      have hitems : readEnclosed (readValue decimal depth) ']' (cs ++ ']' :: rest) = some (items, rest) :=
        readEnclosed_append (.inl rfl) (fun _ _ => Denotes.begins) h (hvalue (by omega)) rest
      rw [List.cons_append, List.append_assoc, List.singleton_append, readValue, hitems]
      rfl
    | noFields hgap =>
      rw [List.cons_append, List.append_assoc, List.singleton_append, readValue,
        readEnclosed_spaces (by simp) hgap rest]
      rfl
    | @fields cs fields h =>
      simp only [List.length_cons, List.length_append, List.length_nil] at hdepth
      have hmember : Reads (Member (Denotes decimal)) (readMember (readValue decimal depth)) cs.length :=
        readMember_append (fun _ _ => Denotes.begins) (hvalue (by omega))
      have hfields : readEnclosed (readMember (readValue decimal depth)) '\x7d' (cs ++ '\x7d' :: rest) =
          some (fields, rest) := readEnclosed_append (.inr rfl) (fun _ _ => Member.begins) h hmember rest
      rw [List.cons_append, List.append_assoc, List.singleton_append, readValue, hfields]
      rfl

theorem read_of_document {text : String} {data : Data} (h : Document decimal text data) :
    read decimal text = some data := by
  unfold Document at h
  unfold read
  generalize text.toList = cs at h
  obtain @⟨before, body, behind, _, hbefore, hbody, hbehind⟩ := h
  have hend (p : Char → Bool) : ∀ c ∈ ([] : List Char).head?, p c = false := nofun
  have hstops : Stops behind := by
    simpa using hbehind.stops (hend isNumeral)
  have hvalue : readValue decimal ((before ++ (body ++ behind)).length + 1) (body ++ behind) = some (data, behind) :=
    readValue_append hbody (by simp only [List.length_append]; omega) hstops
  have hskip : skip behind = [] := by
    simpa using skip_append hbehind (hend isSpace)
  simp only [hbody.begins.skip_append hbefore, hvalue]
  simp [hskip]

theorem Document.unique {text : String} {data data' : Data} (h : Document decimal text data)
    (h' : Document decimal text data') : data = data' :=
  Option.some.inj ((read_of_document h).symm.trans (read_of_document h'))

end MonkeyLang.Json
