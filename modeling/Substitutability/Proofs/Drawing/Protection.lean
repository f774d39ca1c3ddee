import Substitutability.Drawing.Page
import Substitutability.Proofs.Json.Calls
import Substitutability.Proofs.Json.RoundTrip

/-!
# Protected documents are read as before

A backslash between a less-than sign and a slash changes nothing for a reader of JSON. A
less-than sign is read only inside a string. There a slash stands for itself, with or without
a backslash in front of it, and takes one call either way. So each part of the reader finds in
a protected text what it finds in the text, and what it leaves is protected again.
-/

set_option autoImplicit false

namespace Substitutability.Json

open Drawing.Page (protect)

variable {α β : Type} {b : UInt8} {text front rest : Bytes} {fuel : Nat}

/-! ## Protected text -/

theorem protect_cons (h : b ≠ 60) (rest : Bytes) : protect (b :: rest) = b :: protect rest := by
  rw [protect]
  intro after hb
  exact absurd hb h

theorem protect_append (h : 60 ∉ front) (rest : Bytes) :
    protect (front ++ rest) = front ++ protect rest := by
  induction front with
  | nil => rfl
  | cons b front ih =>
    rw [List.mem_cons, not_or] at h
    obtain ⟨hb, hfront⟩ := h
    rw [List.cons_append, protect_cons (Ne.symm hb), ih hfront, List.cons_append]

theorem head?_protect (text : Bytes) : (protect text).head? = text.head? := by
  fun_cases protect text with
  | case1 rest => rfl
  | case2 b rest hpair => rfl
  | case3 => rfl

theorem exists_of_protect_eq_append (front : Bytes) (h : 60 ∉ front) (htext : protect text = front ++ rest) :
    ∃ more, text = front ++ more := by
  induction front generalizing text with
  | nil => exact ⟨text, rfl⟩
  | cons b front ih =>
    rw [List.mem_cons, not_or] at h
    obtain ⟨hb, hfront⟩ := h
    have hhead := head?_protect text
    rw [htext] at hhead
    obtain ⟨behind, rfl⟩ := List.head?_eq_some_iff.1 hhead.symm
    rw [protect_cons (Ne.symm hb)] at htext
    obtain ⟨more, rfl⟩ := ih hfront (List.cons.inj htext).2
    exact ⟨more, rfl⟩

theorem not_of_protect (front : Bytes) (h : 60 ∉ front)
    (hnot : ∀ rest, text = front ++ rest → False) (rest : Bytes)
    (htext : protect text = front ++ rest) : False := by
  obtain ⟨more, hmore⟩ := exists_of_protect_eq_append front h htext
  exact hnot more hmore

theorem exists_protect_cons (b : UInt8) (text : Bytes) :
    ∃ rest, protect (b :: text) = b :: rest :=
  List.head?_eq_some_iff.1 (head?_protect (b :: text))

theorem dropWhile_protect {p : UInt8 → Bool} (h : p 60 = false) (text : Bytes) :
    (protect text).dropWhile p = protect (text.dropWhile p) := by
  induction text with
  | nil => rfl
  | cons b text ih =>
    cases hp : p b with
    | false =>
      obtain ⟨rest, hrest⟩ := exists_protect_cons b text
      rw [List.dropWhile_cons_of_neg (by simp [hp]), hrest,
        List.dropWhile_cons_of_neg (by simp [hp])]
    | true =>
      have hb : b ≠ 60 := by
        rintro rfl
        simp [h] at hp
      rw [protect_cons hb, List.dropWhile_cons_of_pos hp, List.dropWhile_cons_of_pos hp, ih]

theorem takeWhile_protect {p : UInt8 → Bool} (h : p 60 = false) (text : Bytes) :
    (protect text).takeWhile p = text.takeWhile p := by
  induction text with
  | nil => rfl
  | cons b text ih =>
    cases hp : p b with
    | false =>
      obtain ⟨rest, hrest⟩ := exists_protect_cons b text
      rw [hrest, List.takeWhile_cons_of_neg (by simp [hp]),
        List.takeWhile_cons_of_neg (by simp [hp])]
    | true =>
      have hb : b ≠ 60 := by
        rintro rfl
        simp [h] at hp
      rw [protect_cons hb, List.takeWhile_cons_of_pos hp, List.takeWhile_cons_of_pos hp, ih]

theorem skipGap_protect (text : Bytes) : skipGap (protect text) = protect (skipGap text) :=
  dropWhile_protect rfl text

theorem skipGap_protect_of_eq (front : Bytes) (h : 60 ∉ front) (htext : skipGap text = front ++ rest) :
    skipGap (protect text) = front ++ protect rest := by
  rw [skipGap_protect, htext, protect_append h]

/-! ## Readers -/

/-- What the reader finds in a text it finds in the protected text. -/
def Overlooks {m : Type → Type} [Pure m] (reader : Bytes → m (α × Bytes)) : Prop :=
  ∀ ⦃text found rest⦄, reader text = pure (found, rest) →
    reader (protect text) = pure (found, protect rest)

theorem Overlooks.map {reader : Bytes → Option (α × Bytes)} (h : Overlooks reader)
    (f : α → β) : Overlooks fun text => (reader text).map fun (a, rest) => (f a, rest) := by
  intro text found rest hfound
  obtain ⟨⟨a, rest⟩, ha, ⟨⟩⟩ := Option.map_eq_some_iff.1 hfound
  exact Option.map_eq_some_iff.2 ⟨_, h ha, rfl⟩

theorem overlooks_pure (found : α) :
    Overlooks fun rest => (pure (found, rest) : Except Fault (α × Bytes)) := by
  rintro text _ rest ⟨⟩
  rfl

theorem Overlooks.bind {reader : Bytes → Except Fault (α × Bytes)}
    {k : α × Bytes → Except Fault (β × Bytes)} (h : Overlooks reader)
    (hk : ∀ a, Overlooks fun rest => k (a, rest)) : Overlooks fun text => reader text >>= k := by
  intro text found rest hfound
  cases hreader : reader text with
  | error fault =>
    simp only [hreader] at hfound
    cases hfound
  | ok first =>
    simp only [hreader] at hfound
    simp only [h hreader]
    exact hk first.1 hfound

/-! ## Numbers -/

theorem overlooks_digits? : Overlooks digits? := by
  intro text digits rest h
  rw [digits?] at h ⊢
  rw [takeWhile_protect rfl, dropWhile_protect rfl]
  split at h
  · cases h
  · cases h
    rfl

theorem overlooks_whole? : Overlooks whole? := by
  intro text digits rest h
  rw [whole?.eq_def] at h
  split at h
  · cases h
    rw [protect_cons (by decide)]
    rfl
  · rename_i hzero
    rw [whole?]
    · exact overlooks_digits? h
    · exact not_of_protect [48] (by decide) hzero

theorem overlooks_places? : Overlooks places? := by
  intro text places rest h
  rw [places?.eq_def] at h
  split at h
  · rw [protect_cons (by decide)]
    exact overlooks_digits?.map _ h
  · rename_i hpoint
    cases h
    rw [places?]
    · rfl
    · exact not_of_protect [46] (by decide) hpoint

theorem overlooks_signedDigits? : Overlooks signedDigits? := by
  intro text n rest h
  rw [signedDigits?.eq_def] at h
  split at h
  · rw [protect_cons (by decide)]
    exact overlooks_digits?.map (fun digits => -(Bytes.toNat digits : Int)) h
  · rw [protect_cons (by decide)]
    exact overlooks_digits?.map (fun digits => (Bytes.toNat digits : Int)) h
  · rename_i hminus hplus
    rw [signedDigits?]
    · exact overlooks_digits?.map (fun digits => (Bytes.toNat digits : Int)) h
    · exact not_of_protect [45] (by decide) hminus
    · exact not_of_protect [43] (by decide) hplus

theorem overlooks_exponent? : Overlooks exponent? := by
  intro text n rest h
  rw [exponent?.eq_def] at h
  split at h
  · rw [protect_cons (by decide)]
    exact overlooks_signedDigits?.map _ h
  · rw [protect_cons (by decide)]
    exact overlooks_signedDigits?.map _ h
  · rename_i hupper hlower
    cases h
    rw [exponent?]
    · rfl
    · exact not_of_protect [69] (by decide) hupper
    · exact not_of_protect [101] (by decide) hlower

def sign (text : Bytes) : Bool × Bytes :=
  match text with
  | 45 :: rest => (true, rest)
  | _ => (false, text)

theorem literal?_eq_some {l : Literal} (text : Bytes) :
    literal? text = some l ↔ ∃ behindWhole behindPlaces,
      (sign text).1 = l.negative ∧ whole? (sign text).2 = some (l.whole, behindWhole) ∧
        places? behindWhole = some (l.places, behindPlaces) ∧
          exponent? behindPlaces = some (l.exponent, l.rest) := by
  have heq : literal? text = (whole? (sign text).2).bind fun whole =>
      (places? whole.2).bind fun places => (exponent? places.2).bind fun exponent =>
        some ⟨(sign text).1, whole.1, places.1, exponent.1, exponent.2⟩ := rfl
  rw [heq]
  constructor
  · intro h
    obtain ⟨⟨whole, behindWhole⟩, hwhole, h⟩ := Option.bind_eq_some_iff.1 h
    obtain ⟨⟨places, behindPlaces⟩, hplaces, h⟩ := Option.bind_eq_some_iff.1 h
    obtain ⟨⟨exponent, behind⟩, hexponent, ⟨⟩⟩ := Option.bind_eq_some_iff.1 h
    exact ⟨_, _, rfl, hwhole, hplaces, hexponent⟩
  · rintro ⟨behindWhole, behindPlaces, hsign, hwhole, hplaces, hexponent⟩
    simp only [hsign, hwhole, hplaces, hexponent, Option.bind_some]

theorem sign_protect (text : Bytes) :
    sign (protect text) = ((sign text).1, protect (sign text).2) := by
  rw [sign.eq_def text]
  split
  · rw [protect_cons (by decide)]
    rfl
  · rename_i hminus
    rw [sign]
    exact not_of_protect [45] (by decide) hminus

theorem literal?_protect {l : Literal} (h : literal? text = some l) :
    literal? (protect text) = some { l with rest := protect l.rest } := by
  obtain ⟨behindWhole, behindPlaces, hsign, hwhole, hplaces, hexponent⟩ :=
    (literal?_eq_some text).1 h
  refine (literal?_eq_some _).2 ⟨protect behindWhole, protect behindPlaces, ?_⟩
  rw [sign_protect]
  exact ⟨hsign, overlooks_whole? hwhole, overlooks_places? hplaces, overlooks_exponent? hexponent⟩

theorem Literal.value_of_ok {l : Literal} {json : Json} (h : l.value text = .ok json)
    (text' rest : Bytes) : ({ l with rest := rest } : Literal).value text' = .ok json := by
  have hwhole : ({ l with rest := rest } : Literal).signedWhole = l.signedWhole := rfl
  have hdouble : ({ l with rest := rest } : Literal).double = l.double := rfl
  simp only [Literal.value, hwhole, hdouble] at h ⊢
  by_cases hinteger : l.places = none ∧ l.exponent = none ∧ fitsWord l.signedWhole = true
  · rwa [if_pos hinteger] at h ⊢
  · rw [if_neg hinteger] at h ⊢
    by_cases hfinite : l.double.isFinite = true
    · rwa [if_pos hfinite] at h ⊢
    · rw [if_neg hfinite] at h
      cases h

theorem overlooks_number : Overlooks number := by
  intro text json rest h
  rw [number] at h ⊢
  cases hliteral : literal? text with
  | none =>
    rw [hliteral] at h
    cases h
  | some l =>
    rw [literal?_protect hliteral]
    rw [hliteral] at h
    cases hvalue : l.value text with
    | error fault =>
      simp only [hvalue] at h
      cases h
    | ok value =>
      simp only [hvalue] at h
      cases h
      simp only [Literal.value_of_ok hvalue]
      rfl

/-! ## Strings -/

theorem ne_of_hexValue? {n : Nat} (h : hexValue? b = some n) : b ≠ 60 := by
  rintro rfl
  cases h

theorem overlooks_hexFour? : Overlooks hexFour? := by
  intro text n rest h
  rw [hexFour?.eq_def] at h
  split at h
  · rename_i a b c d more
    obtain ⟨first, ha, h⟩ := Option.bind_eq_some_iff.1 h
    obtain ⟨second, hb, h⟩ := Option.bind_eq_some_iff.1 h
    obtain ⟨third, hc, h⟩ := Option.bind_eq_some_iff.1 h
    obtain ⟨fourth, hd, ⟨⟩⟩ := Option.bind_eq_some_iff.1 h
    rw [protect_cons (ne_of_hexValue? ha), protect_cons (ne_of_hexValue? hb),
      protect_cons (ne_of_hexValue? hc), protect_cons (ne_of_hexValue? hd), hexFour?, ha, hb, hc,
      hd]
    rfl
  · cases h

theorem overlooks_unicodeEscape? : Overlooks unicodeEscape? := by
  intro text character rest h
  obtain ⟨⟨n, behind⟩, hfirst, h⟩ := Option.bind_eq_some_iff.1 h
  refine Option.bind_eq_some_iff.2 ⟨_, overlooks_hexFour? hfirst, ?_⟩
  simp only at h ⊢
  split at h
  · cases h
  · rename_i hlower
    rw [if_neg hlower]
    split at h
    · rename_i hupper
      rw [if_pos hupper]
      split at h
      · obtain ⟨⟨low, more⟩, hsecond, h⟩ := Option.bind_eq_some_iff.1 h
        rw [protect_cons (by decide), protect_cons (by decide)]
        refine Option.bind_eq_some_iff.2 ⟨_, overlooks_hexFour? hsecond, ?_⟩
        simp only at h ⊢
        split at h
        · rename_i hlow
          obtain ⟨rfl, rfl⟩ := Prod.mk.inj (Option.some.inj h)
          rw [if_pos hlow]
        · cases h
      · cases h
    · rename_i hupper
      cases h
      rw [if_neg hupper]

theorem string?_slash (fuel : Nat) (rest : Bytes) :
    string? fuel (92 :: 47 :: rest) = string? fuel (47 :: rest) := by
  cases fuel with
  | zero => rfl
  | succ fuel => rfl

theorem take_eq_singleton_or_not_ascii {size : Nat} (h : Utf8.Begins (b :: rest) size) :
    (b :: rest).take size = [b] ∨ ∀ c ∈ (b :: rest).take size, ¬c < 0x80 := by
  obtain ⟨k, rfl⟩ : ∃ k, size = k + 1 := Nat.exists_eq_add_one.2 h.size_pos
  rcases Utf8.eq_singleton_or_not_ascii h.isCharacter_take with ⟨c, hc⟩ | hlarge
  · rw [List.take_succ_cons] at hc ⊢
    obtain ⟨rfl, hrest⟩ := List.cons.inj hc
    exact .inl (by rw [hrest])
  · exact .inr hlarge

theorem stringStep?_sign (rest : Bytes) : stringStep? (60 :: rest) = some ([60], rest) := rfl

theorem stringStep?_protect_sign (rest : Bytes) :
    ∃ behind, stringStep? (protect (60 :: rest)) = some ([60], behind) ∧
      ∀ fuel, string? fuel behind = string? fuel (protect rest) := by
  by_cases hslash : ∃ more, rest = 47 :: more
  · obtain ⟨more, rfl⟩ := hslash
    refine ⟨92 :: 47 :: protect more, stringStep?_sign _, fun fuel => ?_⟩
    rw [protect_cons (by decide), string?_slash]
  · refine ⟨protect rest, ?_, fun _ => rfl⟩
    rw [protect]
    · exact stringStep?_sign _
    · intro more hpair hrest
      exact hslash ⟨more, hrest⟩

theorem stringStep?_protect_of_begins {size : Nat} (h : Utf8.Begins (b :: rest) size)
    (hbare : isBare b = true) (hb : b ≠ 60) :
    stringStep? (protect (b :: rest)) =
      some ((b :: rest).take size, protect ((b :: rest).drop size)) := by
  have hbytes : ∀ c ∈ (b :: rest).take size, c ≠ 60 ∧ isBare c = true := by
    intro c hc
    rcases take_eq_singleton_or_not_ascii h with hone | hlarge
    · rw [hone, List.mem_singleton] at hc
      exact hc ▸ ⟨hb, hbare⟩
    · refine ⟨?_, isBare_of_not_ascii (hlarge c hc)⟩
      rintro rfl
      exact hlarge 60 hc (by decide)
  have hprotect : protect (b :: rest) =
      (b :: rest).take size ++ protect ((b :: rest).drop size) := by
    rw [← protect_append fun hmem => (hbytes 60 hmem).1 rfl, List.take_append_drop]
  have hstep := stringStep?_character h.isCharacter_take (protect ((b :: rest).drop size))
  rwa [flatMap_escapeByte_of_bare fun c hc => (hbytes c hc).2, ← hprotect] at hstep

/-- A character of a string is found in the protected text too, and what is left of the two
texts is the same string. -/
theorem stringStep?_protect {character : Bytes} (h : stringStep? text = some (character, rest))
    (hquote : text.head? ≠ some 34) :
    ∃ behind, stringStep? (protect text) = some (character, behind) ∧
      ∀ fuel, string? fuel behind = string? fuel (protect rest) := by
  rw [stringStep?.eq_def] at h
  split at h
  · cases h
  · rw [protect_cons (by decide), protect_cons (by decide)]
    exact ⟨_, overlooks_unicodeEscape? h, fun _ => rfl⟩
  · rename_i letter more hletter
    obtain ⟨b, hb, ⟨⟩⟩ := Option.map_eq_some_iff.1 h
    have hne : letter ≠ 60 := by
      rintro rfl
      cases hb
    rw [protect_cons (by decide), protect_cons hne, stringStep?]
    · exact ⟨_, Option.map_eq_some_iff.2 ⟨_, hb, rfl⟩, fun _ => rfl⟩
    · exact hletter
  · rename_i b more hunicode hescape
    split at h
    · cases h
    · rename_i hplain
      have hbare : isBare b = true := by
        rw [not_or] at hplain
        have hb : b ≠ 34 := fun hb => hquote (congrArg some hb)
        simp [isBare, hplain, hb]
      rcases Utf8.characterSize_eq_zero_or_begins (b :: more) with hzero | hbegins
      · rw [hzero] at h
        cases h
      · by_cases hb : b = 60
        · subst hb
          cases h
          exact stringStep?_protect_sign more
        · refine ⟨_, ?_, fun _ => rfl⟩
          rw [stringStep?_protect_of_begins hbegins hbare hb]
          split at h
          · cases h
          · rename_i size hsize
            cases h
            rw [hsize]
            rfl

theorem overlooks_string? (fuel : Nat) : Overlooks (string? fuel) := by
  induction fuel with
  | zero =>
    intro text s rest h
    cases h
  | succ fuel ih =>
    intro text s rest h
    rw [string?.eq_def] at h
    simp only at h
    split at h
    · cases h
      rw [protect_cons (by decide)]
      rfl
    · rename_i hopen
      obtain ⟨⟨character, behind⟩, hstep, h⟩ := Option.bind_eq_some_iff.1 h
      obtain ⟨⟨more, rest⟩, hmore, ⟨⟩⟩ := Option.bind_eq_some_iff.1 h
      have hquote : text.head? ≠ some 34 := by
        intro hhead
        obtain ⟨after, rfl⟩ := List.head?_eq_some_iff.1 hhead
        exact hopen after rfl
      obtain ⟨behind', hstep', hsame⟩ := stringStep?_protect hstep hquote
      rw [string?]
      · refine Option.bind_eq_some_iff.2 ⟨_, hstep', ?_⟩
        refine Option.bind_eq_some_iff.2 ⟨_, (hsame fuel).trans (ih hmore), rfl⟩
      · exact not_of_protect [34] (by decide) hopen

/-! ## Values -/

section Steps

variable (hvalue : Overlooks (value fuel)) (hitems : Overlooks (items fuel))
  (hmembers : Overlooks (members fuel))

include hitems hmembers in
theorem overlooks_value_succ : Overlooks (value (fuel + 1)) := by
  intro text json rest h
  rw [value] at h ⊢
  split at h
  · rename_i behind hword
    rw [skipGap_protect_of_eq [110, 117, 108, 108] (by decide) hword]
    cases h
    rfl
  · rename_i behind hword
    rw [skipGap_protect_of_eq [116, 114, 117, 101] (by decide) hword]
    cases h
    rfl
  · rename_i behind hword
    rw [skipGap_protect_of_eq [102, 97, 108, 115, 101] (by decide) hword]
    cases h
    rfl
  · rename_i behind hquote
    rw [skipGap_protect_of_eq [34] (by decide) hquote]
    split at h
    · rename_i s behind' hstring
      cases h
      simp only [List.cons_append, List.nil_append, overlooks_string? fuel hstring]
      rfl
    · cases h
  · rename_i behind hbracket
    rw [skipGap_protect_of_eq [91] (by decide) hbracket]
    simp only [List.cons_append, List.nil_append]
    split at h
    · rename_i after hclose
      rw [skipGap_protect_of_eq [93] (by decide) hclose]
      cases h
      rfl
    · rename_i hopen
      rw [skipGap_protect]
      split
      · rename_i after hafter
        exact (not_of_protect [93] (by decide) hopen after hafter).elim
      · exact hitems.bind (fun items => overlooks_pure (array items)) h
  · rename_i behind hbrace
    rw [skipGap_protect_of_eq [123] (by decide) hbrace]
    simp only [List.cons_append, List.nil_append]
    split at h
    · rename_i after hclose
      rw [skipGap_protect_of_eq [125] (by decide) hclose]
      cases h
      rfl
    · rename_i hopen
      rw [skipGap_protect]
      split
      · rename_i after hafter
        exact (not_of_protect [125] (by decide) hopen after hafter).elim
      · exact hmembers.bind (fun members => overlooks_pure (ofMembers members)) h
  · rename_i hnull htrue hfalse hquote hbracket hbrace
    rw [skipGap_protect]
    split
    · rename_i more hmore
      exact (not_of_protect [110, 117, 108, 108] (by decide) hnull more hmore).elim
    · rename_i more hmore
      exact (not_of_protect [116, 114, 117, 101] (by decide) htrue more hmore).elim
    · rename_i more hmore
      exact (not_of_protect [102, 97, 108, 115, 101] (by decide) hfalse more hmore).elim
    · rename_i more hmore
      exact (not_of_protect [34] (by decide) hquote more hmore).elim
    · rename_i more hmore
      exact (not_of_protect [91] (by decide) hbracket more hmore).elim
    · rename_i more hmore
      exact (not_of_protect [123] (by decide) hbrace more hmore).elim
    · exact overlooks_number h

include hvalue hitems in
theorem overlooks_items_succ : Overlooks (items (fuel + 1)) := by
  intro text found rest h
  rw [items] at h ⊢
  refine hvalue.bind ?_ h
  intro item behind found rest h
  simp only at h ⊢
  split at h
  · rename_i after hclose
    rw [skipGap_protect_of_eq [93] (by decide) hclose]
    cases h
    rfl
  · rename_i after hcomma
    rw [skipGap_protect_of_eq [44] (by decide) hcomma]
    exact hitems.bind (fun more => overlooks_pure (item :: more)) h
  · cases h

include hvalue hmembers in
theorem overlooks_members_succ : Overlooks (members (fuel + 1)) := by
  intro text found rest h
  rw [members] at h ⊢
  split at h
  · rename_i behind hquote
    rw [skipGap_protect_of_eq [34] (by decide) hquote]
    split at h
    · cases h
    · rename_i key behindKey hkey
      have hkey' : string? fuel (protect behind) = some (key, protect behindKey) :=
        overlooks_string? fuel hkey
      simp only [List.cons_append, List.nil_append, hkey']
      split at h
      · rename_i behindColon hcolon
        rw [skipGap_protect_of_eq [58] (by decide) hcolon]
        refine hvalue.bind ?_ h
        intro item behind found rest h
        simp only at h ⊢
        split at h
        · rename_i after hclose
          rw [skipGap_protect_of_eq [125] (by decide) hclose]
          cases h
          rfl
        · rename_i after hcomma
          rw [skipGap_protect_of_eq [44] (by decide) hcomma]
          exact hmembers.bind (fun more => overlooks_pure ((key, item) :: more)) h
        · cases h
      · cases h
  · cases h

end Steps

theorem overlooks_value (fuel : Nat) :
    Overlooks (value fuel) ∧ Overlooks (items fuel) ∧ Overlooks (members fuel) := by
  induction fuel with
  | zero =>
    refine ⟨fun _ _ _ h => ?_, fun _ _ _ h => ?_, fun _ _ _ h => ?_⟩
    · rw [value] at h
      cases h
    · rw [items] at h
      cases h
    · rw [members] at h
      cases h
  | succ fuel ih =>
    obtain ⟨hvalue, hitems, hmembers⟩ := ih
    exact ⟨overlooks_value_succ hitems hmembers, overlooks_items_succ hvalue hitems,
      overlooks_members_succ hvalue hmembers⟩

theorem skipMark_protect (text : Bytes) : skipMark (protect text) = protect (skipMark text) := by
  rw [skipMark.eq_def text]
  split
  · rw [protect_cons (by decide), protect_cons (by decide), protect_cons (by decide)]
    rfl
  · rename_i hmark
    rw [skipMark]
    exact not_of_protect [0xEF, 0xBB, 0xBF] (by decide) hmark

theorem length_le_length_protect (text : Bytes) : text.length ≤ (protect text).length := by
  fun_induction protect text with
  | case1 rest ih => grind
  | case2 b rest hpair ih => grind
  | case3 => rfl

/-- The protected text of a document is a text of the document. -/
theorem IsTextOf.protect {json : Json} (h : IsTextOf text json) :
    IsTextOf (protect text) json := by
  have hlength := length_le_length_protect text
  have hmark := (suffix_skipMark text).length_le
  rw [IsTextOf, (value_congr _).1 (by omega) (by omega :
    2 * (skipMark text).length + 1 ≤ 2 * (Drawing.Page.protect text).length + 2)] at h
  rw [IsTextOf, skipMark_protect]
  exact (overlooks_value _).1 h

end Substitutability.Json
