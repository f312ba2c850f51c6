import Asn1.Proofs.Results
import Asn1.Time
import Mathlib.Computability.Language
import Mathlib.Data.List.TakeWhile
import Mathlib.Order.CompletePartialOrder

namespace Asn1.Time

open Results

/-- Runs of `count` decimal digits that stand for `n`. -/
def numerals (count n : Nat) : Language Char :=
  {chars | chars.length = count ∧ (∀ char ∈ chars, char.isDigit = true) ∧
    Nat.ofDigitChars 10 chars 0 = n}

/-- Numerals for numbers from `least` to `greatest`. -/
def fields (count least greatest : Nat) : Language Char :=
  {chars | ∃ n, least ≤ n ∧ n ≤ greatest ∧ chars ∈ numerals count n}

/-- The last days of the months, in any year. -/
def lastDays : List Nat :=
  [31, 29, 31, 30, 31, 30, 31, 31, 30, 31, 30, 31]

/-- A month, and a day that it has. -/
def days : Language Char :=
  {chars | ∃ month last, lastDays[month]? = some last ∧
    chars ∈ numerals 2 (month + 1) * fields 2 1 last}

def hours : Language Char :=
  fields 2 0 23

/-- Minutes or seconds. -/
def sixtieths : Language Char :=
  fields 2 0 59

def oneOf (chars : List Char) : Language Char :=
  {text | ∃ char ∈ chars, text = [char]}

/-- UTC. -/
def zulu : Language Char :=
  oneOf ['Z']

/-- UTC, or an offset from it. -/
def zones : Language Char :=
  zulu + oneOf ['+', '-'] * (hours * sixtieths)

/-- At least one digit. -/
def fractionDigits : Language Char :=
  {chars | chars ≠ [] ∧ ∀ char ∈ chars, char.isDigit = true}

/-- At least one digit, the last of which is not zero. -/
def shortestFractionDigits : Language Char :=
  {chars | chars ∈ fractionDigits ∧ chars.getLast? ≠ some '0'}

def optional (form : Language Char) : Language Char :=
  1 + form

/-- `YYMMDDhhmm[ss](Z|±hhmm)` -/
def utcTimes : Language Char :=
  fields 2 0 99 * (days * (hours * (sixtieths * (optional sixtieths * zones))))

/-- `YYMMDDhhmmssZ` -/
def restrictedUtcTimes : Language Char :=
  fields 2 0 99 * (days * (hours * (sixtieths * (sixtieths * zulu))))

/-- `YYYYMMDDhh[mm[ss]][(.|,)f+][Z|±hhmm]` -/
def generalizedTimes : Language Char :=
  fields 4 0 9999 * (days * (hours * (optional (sixtieths * optional sixtieths) *
    (optional (oneOf ['.', ','] * fractionDigits) * optional zones))))

/-- `YYYYMMDDhhmmss[.f+]Z`, where the fraction does not end in zero. -/
def restrictedGeneralizedTimes : Language Char :=
  fields 4 0 9999 * (days * (hours * (sixtieths * (sixtieths *
    (optional (oneOf ['.'] * shortestFractionDigits) * zulu)))))

section Runs

variable {α β : Type} {check : Check α} {next : α → Check β} {chars rest : List Char} {b : β}

theorem bind_apply_eq_ok_iff : (check >>= next) chars = .ok (b, rest) ↔
    ∃ a middle, check chars = .ok (a, middle) ∧ next a middle = .ok (b, rest) := by
  change (check chars >>= fun pair => next pair.1 pair.2) = _ ↔ _
  rw [bind_eq_ok_iff]
  exact Prod.exists

theorem get_bind_apply (next : List Char → Check β) : (get >>= next) chars = next chars chars :=
  rfl

theorem run'_eq_ok_iff {check : Check Unit} :
    check.run' chars = .ok () ↔ ∃ rest, check chars = .ok ((), rest) := by
  change (Prod.fst <$> check chars) = _ ↔ _
  rw [map_eq_ok_iff]
  exact ⟨fun ⟨⟨_, rest⟩, h, _⟩ => ⟨rest, h⟩, fun ⟨rest, h⟩ => ⟨_, h, rfl⟩⟩

theorem bind_run'_eq_ok_iff {check next : Check Unit} :
    (check >>= fun _ => next).run' chars = .ok () ↔
      ∃ rest, check chars = .ok ((), rest) ∧ next.run' rest = .ok () := by
  simp only [run'_eq_ok_iff, bind_apply_eq_ok_iff]
  constructor
  · rintro ⟨rest, _, middle, hcheck, hnext⟩
    exact ⟨middle, hcheck, rest, hnext⟩
  · rintro ⟨middle, hcheck, rest, hnext⟩
    exact ⟨rest, (), middle, hcheck, hnext⟩

end Runs

/-- Whether a check takes what a language has for its result off the front of a text. -/
def Takes {α : Type} (check : Check α) (form : α → Language Char) : Prop :=
  ∀ chars a rest, check chars = .ok (a, rest) ↔ ∃ front ∈ form a, front ++ rest = chars

/-- Whether a check accepts the texts of a language. -/
def Accepts (check : Check Unit) (form : Language Char) : Prop :=
  ∀ chars, check.run' chars = .ok () ↔ chars ∈ form

section Steps

variable {α β : Type} {check : Check α} {form : α → Language Char} {first after : Language Char}
  {chars rest : List Char}

theorem Takes.bind {next : α → Check β} {other : α → β → Language Char} {b : β}
    (h : Takes check form) (hnext : ∀ a, Takes (next a) (other a)) :
    (check >>= next) chars = .ok (b, rest) ↔
      ∃ a, ∃ front ∈ form a * other a b, front ++ rest = chars := by
  simp only [bind_apply_eq_ok_iff, h chars, hnext _ _, Language.mem_mul]
  constructor
  · rintro ⟨a, _, ⟨front, hfront, rfl⟩, back, hback, rfl⟩
    exact ⟨a, _, ⟨front, hfront, back, hback, rfl⟩, List.append_assoc ..⟩
  · rintro ⟨a, _, ⟨front, hfront, back, hback, rfl⟩, rfl⟩
    exact ⟨a, back ++ rest, ⟨front, hfront, (List.append_assoc ..).symm⟩, back, hback, rfl⟩

theorem Takes.bind_unit {check next : Check Unit} (h : Takes check fun _ => first)
    (hnext : Takes next fun _ => after) :
    Takes (check >>= fun _ => next) fun _ => first * after := by
  intro chars _ rest
  rw [h.bind fun _ => hnext]
  constructor
  · rintro ⟨_, hmem⟩
    exact hmem
  · intro hmem
    exact ⟨(), hmem⟩

theorem Takes.accepts_bind {check next : Check Unit} (h : Takes check fun _ => first)
    (hnext : Accepts next after) : Accepts (check >>= fun _ => next) (first * after) := by
  intro chars
  simp only [bind_run'_eq_ok_iff, Language.mem_mul, h chars, hnext _]
  constructor
  · rintro ⟨rest, ⟨front, hfront, heq⟩, hrest⟩
    exact ⟨front, hfront, rest, hrest, heq⟩
  · rintro ⟨front, hfront, rest, hrest, heq⟩
    exact ⟨rest, ⟨front, hfront, heq⟩, hrest⟩

theorem discard_apply_eq_ok_iff :
    (discard check) chars = .ok ((), rest) ↔ ∃ a, check chars = .ok (a, rest) := by
  change (check chars >>= fun pair => pure ((), pair.2)) = _ ↔ _
  simp only [bind_eq_ok_iff, Prod.exists, pure_eq_ok_iff, Prod.mk.injEq, true_and,
    exists_eq_right]

end Steps

section Fields

variable {count least greatest n : Nat} {chars : List Char}

theorem digits_cons (value : Nat) (char : Char) :
    digits value (count + 1) (char :: chars) =
      if char.isDigit = true then digits (value * 10 + (char.toNat - '0'.toNat)) count chars
      else .error .expectedDigit := by
  change (if char.isDigit = true then
    (set chars >>= fun _ => digits (value * 10 + (char.toNat - '0'.toNat)) count)
    else throw TimeError.expectedDigit : Check Nat) (char :: chars) = _
  split
  · rfl
  · rfl

/-- The value so far is that of the digits before the ones that are taken. -/
theorem takes_digits (value : Nat) : Takes (digits value count) fun n =>
    {front | front.length = count ∧ (∀ char ∈ front, char.isDigit = true) ∧
      Nat.ofDigitChars 10 front value = n} := by
  induction count generalizing value with
  | zero =>
      intro chars n rest
      change Except.ok (value, chars) = .ok (n, rest) ↔ _
      constructor
      · rintro ⟨⟩
        exact ⟨[], ⟨rfl, by simp, rfl⟩, rfl⟩
      · rintro ⟨front, ⟨hlength, -, rfl⟩, rfl⟩
        rw [List.length_eq_zero_iff.mp hlength]
        rfl
  | succ count ih =>
      intro chars n rest
      constructor
      · intro h
        cases chars with
        | nil => contradiction
        | cons char chars =>
            rw [digits_cons] at h
            split at h
            · next hdigit =>
              obtain ⟨front, ⟨rfl, hfront, hvalue⟩, rfl⟩ := (ih _ chars n rest).mp h
              refine ⟨char :: front, ⟨rfl, List.forall_mem_cons.mpr ⟨hdigit, hfront⟩, ?_⟩, rfl⟩
              rwa [Nat.ofDigitChars_cons, Nat.mul_comm]
            · contradiction
      · rintro ⟨front, ⟨hlength, hfront, hvalue⟩, rfl⟩
        obtain ⟨char, front, rfl⟩ := List.exists_cons_of_length_eq_add_one hlength
        obtain ⟨hdigit, hfront⟩ := List.forall_mem_cons.mp hfront
        rw [Nat.ofDigitChars_cons, Nat.mul_comm] at hvalue
        rw [List.cons_append, digits_cons, if_pos hdigit]
        exact (ih _ _ n rest).mpr ⟨front, ⟨Nat.succ.inj hlength, hfront, hvalue⟩, rfl⟩

theorem takes_field : Takes (field count least greatest) fun n =>
    {front | least ≤ n ∧ n ≤ greatest ∧ front ∈ numerals count n} := by
  intro chars n rest
  rw [field, bind_apply_eq_ok_iff]
  constructor
  · rintro ⟨value, middle, hdigits, h⟩
    split at h
    · contradiction
    · next hrange =>
      obtain ⟨rfl, rfl⟩ := Prod.mk.inj (Except.ok.inj h)
      obtain ⟨front, hfront, heq⟩ := (takes_digits 0 chars _ _).mp hdigits
      exact ⟨front, ⟨by omega, by omega, hfront⟩, heq⟩
  · rintro ⟨front, ⟨hleast, hgreatest, hfront⟩, heq⟩
    refine ⟨n, rest, (takes_digits 0 chars _ _).mpr ⟨front, hfront, heq⟩, ?_⟩
    rw [if_neg (by omega)]
    rfl

theorem takes_discard_field :
    Takes (discard (field count least greatest)) fun _ => fields count least greatest := by
  intro chars ⟨⟩ rest
  simp only [discard_apply_eq_ok_iff, takes_field _ _ _]
  exact ⟨fun ⟨n, front, hfront, heq⟩ => ⟨front, ⟨n, hfront⟩, heq⟩,
    fun ⟨front, ⟨n, hfront⟩, heq⟩ => ⟨n, front, hfront, heq⟩⟩

theorem takes_hour : Takes hour fun _ => hours :=
  takes_discard_field

theorem takes_sixtieth : Takes sixtieth fun _ => sixtieths :=
  takes_discard_field

theorem getElem?_lastDays (h : n < 12) : lastDays[n]? = some (lastDay (n + 1)) := by
  have hmonths : ∀ n < 12, lastDays[n]? = some (lastDay (n + 1)) := by decide
  exact hmonths n h

theorem takes_monthAndDay : Takes monthAndDay fun _ => days := by
  intro chars _ rest
  refine (takes_field.bind fun _ => takes_discard_field).trans ?_
  constructor
  · rintro ⟨month, _, ⟨front, ⟨hleast, hgreatest, hfront⟩, back, hback, rfl⟩, heq⟩
    obtain ⟨month, rfl⟩ := Nat.exists_eq_add_of_le' hleast
    exact ⟨_, ⟨month, _, getElem?_lastDays hgreatest, front, hfront, back, hback, rfl⟩, heq⟩
  · rintro ⟨_, ⟨month, last, hlast, front, hfront, back, hback, rfl⟩, heq⟩
    have hmonth : month < 12 := (List.getElem?_eq_some_iff.mp hlast).1
    obtain rfl := Option.some.inj ((getElem?_lastDays hmonth).symm.trans hlast)
    exact ⟨month + 1, _, ⟨front, ⟨Nat.le_add_left 1 month, hmonth, hfront⟩, back, hback, rfl⟩, heq⟩

end Fields

/-- What the texts of a language may start with. -/
def StartsWith (form : Language Char) (p : Char → Prop) : Prop :=
  ∀ char chars, char :: chars ∈ form → p char

section Starts

variable {form other : Language Char} {p : Char → Prop} {char : Char} {chars marks : List Char}

theorem StartsWith.mul (h : StartsWith form p) (hother : StartsWith other p) :
    StartsWith (form * other) p := by
  intro char chars hmem
  obtain ⟨front, hfront, back, hback, heq⟩ := Language.mem_mul.mp hmem
  cases front with
  | nil =>
      rw [List.nil_append] at heq
      exact hother char chars (heq ▸ hback)
  | cons first front => exact (List.cons_eq_cons.mp heq).1 ▸ h first front hfront

theorem StartsWith.add (h : StartsWith form p) (hother : StartsWith other p) :
    StartsWith (form + other) p := by
  intro char chars hmem
  exact hmem.elim (h char chars) (hother char chars)

theorem StartsWith.optional (h : StartsWith form p) : StartsWith (optional form) p :=
  StartsWith.add (fun _ _ hmem => nomatch hmem) h

theorem cons_mem_oneOf_iff : char :: chars ∈ oneOf marks ↔ char ∈ marks ∧ chars = [] := by
  constructor
  · rintro ⟨mark, hmark, heq⟩
    obtain ⟨rfl, rfl⟩ := List.cons_eq_cons.mp heq
    exact ⟨hmark, rfl⟩
  · rintro ⟨hmark, rfl⟩
    exact ⟨char, hmark, rfl⟩

theorem cons_mem_oneOf_mul_iff :
    char :: chars ∈ oneOf marks * form ↔ char ∈ marks ∧ chars ∈ form := by
  rw [Language.mem_mul]
  constructor
  · rintro ⟨_, ⟨mark, hmark, rfl⟩, back, hback, heq⟩
    obtain ⟨rfl, rfl⟩ := List.cons_eq_cons.mp heq
    exact ⟨hmark, hback⟩
  · rintro ⟨hmark, hchars⟩
    exact ⟨[char], ⟨char, hmark, rfl⟩, chars, hchars, rfl⟩

theorem nil_notMem_oneOf_mul : [] ∉ oneOf marks * form := by
  rintro ⟨_, ⟨mark, -, rfl⟩, back, -, heq⟩
  contradiction

theorem startsWith_oneOf_mul (h : ∀ mark ∈ marks, p mark) : StartsWith (oneOf marks * form) p := by
  intro char _ hmem
  exact h char (cons_mem_oneOf_mul_iff.mp hmem).1

end Starts

section Pieces

variable {next less : Check Unit} {after form : Language Char} {char : Char} {chars : List Char}
  {restricted : Bool}

theorem exists_cons_of_mem_sixtieths (h : chars ∈ sixtieths) :
    ∃ char rest, chars = char :: rest ∧ char.isDigit = true := by
  obtain ⟨n, -, -, hlength, hdigits, -⟩ := h
  obtain ⟨char, rest, rfl⟩ := List.exists_cons_of_length_eq_add_one hlength
  exact ⟨char, rest, rfl, hdigits char List.mem_cons_self⟩

theorem accepts_finish : Accepts finish 1 := by
  intro chars
  cases chars with
  | nil => exact iff_of_true rfl rfl
  | cons char chars => exact iff_of_false nofun nofun

theorem accepts_sixtieth? (hnext : Accepts next after) (hless : Accepts less form)
    (hform : StartsWith form (·.isDigit = false)) :
    Accepts (nextIsDigit >>= fun isNext => if isNext then sixtieth >>= fun _ => next else less)
      (sixtieths * after + form) := by
  intro chars
  rw [Language.mem_add]
  change StateT.run' (if (chars.head?.map Char.isDigit).getD false then _ else _) chars = _ ↔ _
  split
  · next hhead =>
    refine (takes_sixtieth.accepts_bind hnext chars).trans (or_iff_left fun hmem => ?_).symm
    cases chars with
    | nil => contradiction
    | cons char chars =>
        have hdigit := hform char chars hmem
        exact Bool.false_ne_true (hdigit.symm.trans hhead)
  · next hhead =>
    refine (hless chars).trans (or_iff_right fun hmem => hhead ?_).symm
    obtain ⟨front, hfront, back, -, rfl⟩ := Language.mem_mul.mp hmem
    obtain ⟨char, rest, rfl, hdigit⟩ := exists_cons_of_mem_sixtieths hfront
    exact hdigit

theorem accepts_requiredSixtieth {error : TimeError} {other : Check Unit}
    (hnext : Accepts next after) :
    Accepts (nextIsDigit >>= fun isNext =>
      if isNext then sixtieth >>= fun _ => next else throw error >>= fun _ : Unit => other)
      (sixtieths * after) := by
  have hnone : Accepts (throw error >>= fun _ : Unit => other) 0 :=
    fun _ => iff_of_false nofun (Language.notMem_zero _)
  have h := accepts_sixtieth? hnext hnone nofun
  rwa [add_zero] at h

theorem offset_apply_eq_ok_iff :
    (hour >>= fun _ => sixtieth) chars = .ok ((), []) ↔ chars ∈ hours * sixtieths := by
  refine (takes_hour.bind_unit takes_sixtieth chars () []).trans ?_
  simp only [List.append_nil, exists_eq_right]

/-- The zones that a time may end with. -/
def endZones (restricted required : Bool) : Language Char :=
  if restricted then zulu else if required then zones else optional zones

theorem zulu_le_endZones (restricted required : Bool) : zulu ≤ endZones restricted required := by
  have hzones : zulu ≤ zones := le_self_add
  cases restricted with
  | false =>
      cases required with
      | false => exact hzones.trans le_add_self
      | true => exact hzones
  | true => exact le_rfl

theorem offset_mem_endZones (required : Bool) (hsign : char ∈ ['+', '-'])
    (hchars : chars ∈ hours * sixtieths) : char :: chars ∈ endZones false required := by
  have hzones : char :: chars ∈ zones := .inr (cons_mem_oneOf_mul_iff.mpr ⟨hsign, hchars⟩)
  cases required with
  | false => exact .inr hzones
  | true => exact hzones

theorem zone_sign (required : Bool) (hsign : char ∈ ['+', '-']) :
    zone false required (char :: chars) = (hour >>= fun _ => sixtieth) chars := by
  rcases List.mem_cons.mp hsign with rfl | hsign
  · rfl
  · obtain rfl := List.mem_singleton.mp hsign
    rfl

theorem mem_endZones_of_zone {restricted required : Bool}
    (h : zone restricted required chars = .ok ((), [])) : chars ∈ endZones restricted required := by
  rw [zone, get_bind_apply] at h
  split at h
  · obtain ⟨⟩ := h
    exact zulu_le_endZones restricted required ⟨'Z', List.mem_cons_self, rfl⟩
  · cases restricted with
    | false => exact offset_mem_endZones required (by decide) (offset_apply_eq_ok_iff.mp h)
    | true => contradiction
  · cases restricted with
    | false => exact offset_mem_endZones required (by decide) (offset_apply_eq_ok_iff.mp h)
    | true => contradiction
  · cases restricted with
    | false =>
        cases required with
        | false => exact .inl rfl
        | true => contradiction
    | true => contradiction
  · contradiction

theorem zone_of_mem_zulu (restricted required : Bool) (h : chars ∈ zulu) :
    zone restricted required chars = .ok ((), []) := by
  obtain ⟨char, hchar, rfl⟩ := h
  obtain rfl := List.mem_singleton.mp hchar
  rfl

theorem zone_of_mem_zones (required : Bool) (h : chars ∈ zones) :
    zone false required chars = .ok ((), []) := by
  rcases h with hzulu | hoffset
  · exact zone_of_mem_zulu false required hzulu
  · obtain ⟨_, ⟨sign, hsign, rfl⟩, offset, hmem, rfl⟩ := Language.mem_mul.mp hoffset
    exact (zone_sign required hsign).trans (offset_apply_eq_ok_iff.mpr hmem)

theorem zone_of_mem_endZones {restricted required : Bool}
    (h : chars ∈ endZones restricted required) : zone restricted required chars = .ok ((), []) := by
  cases restricted with
  | false =>
      cases required with
      | false =>
          rcases h with rfl | hzones
          · rfl
          · exact zone_of_mem_zones false hzones
      | true => exact zone_of_mem_zones true h
  | true => exact zone_of_mem_zulu true required h

theorem accepts_zone (restricted required : Bool) :
    Accepts (zone restricted required >>= fun _ => finish) (endZones restricted required) := by
  intro chars
  simp only [bind_run'_eq_ok_iff, accepts_finish _, Language.mem_one, exists_eq_right]
  exact ⟨mem_endZones_of_zone, zone_of_mem_endZones⟩

/-- The digits after a point or comma. -/
def runs (restricted : Bool) : Language Char :=
  if restricted then shortestFractionDigits else fractionDigits

theorem isDigit_of_mem_runs (h : chars ∈ runs restricted) (hchar : char ∈ chars) :
    char.isDigit = true := by
  cases restricted with
  | false => exact h.2 char hchar
  | true => exact h.1.2 char hchar

theorem mem_runs_iff (hdigits : ∀ char ∈ chars, char.isDigit = true) :
    chars ∈ runs restricted ↔
      chars ≠ [] ∧ ¬(restricted && chars.getLast? == some '0') = true := by
  have hrun : chars ∈ fractionDigits ↔ chars ≠ [] := and_iff_left hdigits
  cases restricted with
  | false => simpa [runs] using hrun
  | true => exact and_congr hrun (by simp)

theorem fraction_apply_eq_ok_iff (restricted : Bool) {rest : List Char} :
    fraction restricted chars = .ok ((), rest) ↔
      chars.takeWhile Char.isDigit ∈ runs restricted ∧ chars.dropWhile Char.isDigit = rest := by
  rw [mem_runs_iff fun _ => List.mem_takeWhile_imp]
  change (if (chars.takeWhile Char.isDigit).isEmpty then
      (throw TimeError.emptyFraction >>= fun _ => _ : Check Unit) else
      if restricted && (chars.takeWhile Char.isDigit).getLast? == some '0' then
        throw TimeError.trailingZero else pure ()) (chars.dropWhile Char.isDigit) = _ ↔ _
  split
  · next hempty => exact iff_of_false nofun fun h => h.1.1 (List.isEmpty_iff.mp hempty)
  · next hempty =>
    rw [and_iff_right fun hnil => hempty (List.isEmpty_iff.mpr hnil)]
    split
    · next hzero => exact iff_of_false nofun fun h => h.1 hzero
    · next hzero =>
      rw [and_iff_right hzero]
      change Except.ok ((), _) = _ ↔ _
      simp

theorem accepts_fraction (restricted : Bool) (hnext : Accepts next after)
    (hafter : StartsWith after (·.isDigit = false)) :
    Accepts (fraction restricted >>= fun _ => next) (runs restricted * after) := by
  intro chars
  simp only [bind_run'_eq_ok_iff, fraction_apply_eq_ok_iff, hnext _]
  constructor
  · rintro ⟨_, ⟨hrun, rfl⟩, hrest⟩
    exact Language.mem_mul.mpr ⟨_, hrun, _, hrest, List.takeWhile_append_dropWhile⟩
  · intro hmem
    obtain ⟨front, hfront, back, hback, rfl⟩ := Language.mem_mul.mp hmem
    have hdigits : ∀ char ∈ front, char.isDigit = true := fun _ => isDigit_of_mem_runs hfront
    have hend : back.takeWhile Char.isDigit = [] ∧ back.dropWhile Char.isDigit = back := by
      cases back with
      | nil => exact ⟨rfl, rfl⟩
      | cons char back =>
          have hchar := hafter char back hback
          exact ⟨List.takeWhile_cons_of_neg (by simp [hchar]),
            List.dropWhile_cons_of_neg (by simp [hchar])⟩
    refine ⟨back, ⟨?_, ?_⟩, hback⟩
    · rwa [List.takeWhile_append_of_pos hdigits, hend.1, List.append_nil]
    · rw [List.dropWhile_append_of_pos hdigits, hend.2]

/-- What a fraction may start with. -/
def marks (restricted : Bool) : List Char :=
  if restricted then ['.'] else ['.', ',']

theorem mem_of_mem_marks (h : char ∈ marks restricted) : char ∈ ['.', ','] := by
  cases restricted with
  | false => exact h
  | true => exact List.mem_cons.mpr (.inl (List.mem_singleton.mp h))

theorem fraction?_mark (h : char ∈ marks restricted) :
    fraction? restricted (char :: chars) = fraction restricted chars := by
  cases restricted with
  | false =>
      rcases List.mem_cons.mp h with rfl | h
      · rfl
      · obtain rfl := List.mem_singleton.mp h
        rfl
  | true =>
      obtain rfl := List.mem_singleton.mp h
      rfl

theorem fraction?_comma (h : char ∈ ['.', ',']) (hmark : char ∉ marks restricted) :
    fraction? restricted (char :: chars) = .error .commaInFraction := by
  cases restricted with
  | false => contradiction
  | true =>
      rcases List.mem_cons.mp h with rfl | h
      · exact absurd List.mem_cons_self hmark
      · obtain rfl := List.mem_singleton.mp h
        rfl

theorem fraction?_other (h : ∀ char ∈ chars.head?, char ∉ ['.', ',']) :
    fraction? restricted chars = .ok ((), chars) := by
  rw [fraction?, get_bind_apply]
  split
  · simp at h
  · simp at h
  · rfl

theorem accepts_fraction? (restricted : Bool) (hnext : Accepts next after)
    (hdigit : StartsWith after (·.isDigit = false))
    (hmark : StartsWith after (· ∉ ['.', ','])) :
    Accepts (fraction? restricted >>= fun _ => next)
      (optional (oneOf (marks restricted) * runs restricted) * after) := by
  intro chars
  rw [optional, one_add_mul, mul_assoc, Language.mem_add]
  have hother (h : ∀ char ∈ chars.head?, char ∉ ['.', ',']) :
      (fraction? restricted >>= fun _ => next).run' chars = .ok () ↔ chars ∈ after := by
    rw [bind_run'_eq_ok_iff]
    simp only [fraction?_other h, hnext _]
    simp
  cases chars with
  | nil => exact (hother nofun).trans (or_iff_left nil_notMem_oneOf_mul).symm
  | cons char chars =>
      rw [cons_mem_oneOf_mul_iff]
      by_cases hchar : char ∈ marks restricted
      · rw [and_iff_right hchar, or_iff_right fun h => hmark char chars h (mem_of_mem_marks hchar),
          ← accepts_fraction restricted hnext hdigit, bind_run'_eq_ok_iff, bind_run'_eq_ok_iff,
          fraction?_mark hchar]
      · rw [or_iff_left fun h => hchar h.1]
        by_cases hany : char ∈ ['.', ',']
        · rw [bind_run'_eq_ok_iff, fraction?_comma hany hchar]
          exact iff_of_false nofun fun h => hmark char chars h hany
        · exact hother fun first hfirst => Option.some.inj hfirst ▸ hany

end Pieces

section Times

variable {restricted : Bool}

theorem accepts_dateAndHour {next : Check Unit} {after : Language Char} {count greatest : Nat}
    (h : Accepts next after) :
    Accepts
      (discard (field count 0 greatest) >>= fun _ =>
        monthAndDay >>= fun _ => hour >>= fun _ => next)
      (fields count 0 greatest * (days * (hours * after))) := by
  apply takes_discard_field.accepts_bind
  apply takes_monthAndDay.accepts_bind
  exact takes_hour.accepts_bind h

theorem startsWith_endZones (restricted required : Bool) {p : Char → Prop}
    (h : ∀ char ∈ ['Z', '+', '-'], p char) : StartsWith (endZones restricted required) p := by
  have hzulu : StartsWith zulu p := fun char _ hmem =>
    h char (List.mem_cons.mpr (.inl (List.mem_singleton.mp (cons_mem_oneOf_iff.mp hmem).1)))
  have hzones : StartsWith zones p :=
    hzulu.add (startsWith_oneOf_mul fun char hchar => h char (List.mem_cons_of_mem _ hchar))
  cases restricted with
  | false =>
      cases required with
      | false => exact hzones.optional
      | true => exact hzones
  | true => exact hzulu

theorem accepts_utc (restricted : Bool) :
    Accepts (utc restricted) (if restricted then restrictedUtcTimes else utcTimes) := by
  have hend := accepts_zone restricted true
  cases restricted with
  | false =>
      have hdigit := startsWith_endZones false true (p := (·.isDigit = false)) (by simp)
      have h := takes_sixtieth.accepts_bind (accepts_sixtieth? hend hend hdigit)
      rw [← add_one_mul, add_comm] at h
      exact accepts_dateAndHour h
  | true =>
      exact accepts_dateAndHour (takes_sixtieth.accepts_bind (accepts_requiredSixtieth hend))

theorem accepts_generalized (restricted : Bool) : Accepts (generalized restricted)
    (if restricted then restrictedGeneralizedTimes else generalizedTimes) := by
  have hdigit := startsWith_endZones restricted false (p := (·.isDigit = false)) (by simp)
  have hmark := startsWith_endZones restricted false (p := (· ∉ ['.', ','])) (by simp)
  have hend := accepts_fraction? restricted (accepts_zone restricted false) hdigit hmark
  cases restricted with
  | false =>
      have hstart : StartsWith (optional (oneOf ['.', ','] * fractionDigits) * optional zones)
          (·.isDigit = false) :=
        (startsWith_oneOf_mul (by simp)).optional.mul hdigit
      have hinner := accepts_sixtieth? hend hend hstart
      rw [← add_one_mul, add_comm] at hinner
      have h := accepts_sixtieth? hinner hend hstart
      rw [← mul_assoc, ← add_one_mul, add_comm] at h
      exact accepts_dateAndHour h
  | true =>
      exact accepts_dateAndHour (accepts_requiredSixtieth (accepts_requiredSixtieth hend))

theorem oneOf_mono {chars others : List Char} (h : chars ⊆ others) :
    oneOf chars ≤ oneOf others := by
  rintro _ ⟨char, hchar, rfl⟩
  exact ⟨char, h hchar, rfl⟩

theorem restrictedUtcTimes_le : restrictedUtcTimes ≤ utcTimes := by
  have hsecond : sixtieths ≤ optional sixtieths := le_add_self
  have hzone : zulu ≤ zones := le_self_add
  unfold restrictedUtcTimes utcTimes
  gcongr

theorem restrictedGeneralizedTimes_le : restrictedGeneralizedTimes ≤ generalizedTimes := by
  -- Each piece of the restricted form is one of the general form, and `gcongr` puts them together.
  have hsixtieths : sixtieths * sixtieths ≤ optional (sixtieths * optional sixtieths) := by
    calc sixtieths * sixtieths ≤ sixtieths * optional sixtieths := by gcongr; exact le_add_self
      _ ≤ optional (sixtieths * optional sixtieths) := le_add_self
  have hfraction : optional (oneOf ['.'] * shortestFractionDigits) ≤
      optional (oneOf ['.', ','] * fractionDigits) := by
    have hpoint : oneOf ['.'] ≤ oneOf ['.', ','] := oneOf_mono (by decide)
    have hdigits : shortestFractionDigits ≤ fractionDigits := fun _ => And.left
    unfold optional
    gcongr
  have hzone : zulu ≤ optional zones := le_self_add.trans le_add_self
  unfold restrictedGeneralizedTimes generalizedTimes
  rw [← mul_assoc sixtieths sixtieths]
  gcongr

end Times

/-- The checks accept exactly the texts of the grammar. What is accepted in a restricted form is
accepted in general. -/
theorem checks_grammar (text : String) :
    (checkUtc text false = .ok () ↔ text.toList ∈ utcTimes) ∧
      (checkUtc text true = .ok () ↔ text.toList ∈ restrictedUtcTimes) ∧
      (checkGeneralized text false = .ok () ↔ text.toList ∈ generalizedTimes) ∧
      (checkGeneralized text true = .ok () ↔ text.toList ∈ restrictedGeneralizedTimes) ∧
      restrictedUtcTimes ≤ utcTimes ∧ restrictedGeneralizedTimes ≤ generalizedTimes := by
  refine ⟨accepts_utc false _, accepts_utc true _, accepts_generalized false _,
    accepts_generalized true _, ?_, ?_⟩
  · exact restrictedUtcTimes_le
  · exact restrictedGeneralizedTimes_le

end Asn1.Time
