import Dkvs.PlainText
import Dkvs.Server

/-!
# Addresses as text

An address is written as its host, a colon and its port, and read by cutting the text at its
last colon. Lists of addresses are separated by commas; servers and clients read them from
their command lines, and a client reads the address in the answer of a server that is not
the leader. The port is collected in an `int`, and leaving its range is an error of its own.
-/

namespace Dkvs

open PlainText

structure Address where
  host : Bytes
  port : UInt16
  deriving DecidableEq, Repr

/-- The value of an `int` would leave its range. -/
structure IntOverflow where
  deriving DecidableEq, Repr

def colon : UInt8 := 58

def comma : UInt8 := 44

def IsDigit (c : UInt8) : Prop := 48 ≤ c ∧ c ≤ 57

instance (c : UInt8) : Decidable (IsDigit c) := inferInstanceAs (Decidable (_ ∧ _))

/-- `c - '0'` of a digit. -/
def digitOf (c : UInt8) : ℕ := c.toNat - 48

/-- `std::to_string`. -/
def decimal (n : ℕ) : Bytes := (Nat.toDigits 10 n).map fun c ↦ UInt8.ofNat c.toNat

/-- The loop of `Address::parse` over what follows the colon. The product is not larger than
the sum, so one test covers both operations. -/
def readPort : Bytes → ℕ → Except IntOverflow (Option ℕ)
  | [], port => .ok (some port)
  | c :: rest, port =>
      if c < 48 ∨ 57 < c then .ok none
      else if 2 ^ 31 ≤ port * 10 + digitOf c then .error ⟨⟩
      else if 65535 < port * 10 + digitOf c then .ok none
      else readPort rest (port * 10 + digitOf c)

namespace Address

def parse (hostPort : Bytes) : Except IntOverflow (Option Address) :=
  match rfind? colon hostPort with
  | none => .ok none
  | some i =>
      if i = 0 ∨ hostPort.length ≤ i + 1 then .ok none
      else
        match readPort (hostPort.drop (i + 1)) 0 with
        | .error e => .error e
        | .ok none => .ok none
        | .ok (some port) =>
            if port = 0 then .ok none else .ok (some ⟨hostPort.take i, UInt16.ofNat port⟩)

def str (a : Address) : Bytes := a.host ++ [colon] ++ decimal a.port.toNat

end Address

/-- One item of a list: an empty one is passed over, and `none` is the return with an
empty list. -/
def addItem (item : Bytes) (out : List Address) : Except IntOverflow (Option (List Address)) :=
  if item.isEmpty then .ok (some out)
  else
    match Address.parse item with
    | .error e => .error e
    | .ok none => .ok none
    | .ok (some addr) => .ok (some (out ++ [addr]))

/-- The loop of `parseAddrList` from the position `start` on. -/
def parseAddrListFrom (csv : Bytes) (start : ℕ) (out : List Address) :
    Except IntOverflow (List Address) :=
  if start ≤ csv.length then
    match _hnext : find? comma csv start with
    | none =>
        match addItem (csv.drop start) out with
        | .error e => .error e
        | .ok none => .ok []
        | .ok (some out) => .ok out
    | some next =>
        match addItem ((csv.drop start).take (next - start)) out with
        | .error e => .error e
        | .ok none => .ok []
        | .ok (some out) => parseAddrListFrom csv (next + 1) out
  else .ok out
termination_by csv.length + 1 - start
decreasing_by
  have hbounds := splitOn_of_find?_eq_some _hnext
  omega

def parseAddrList (csv : Bytes) : Except IntOverflow (List Address) := parseAddrListFrom csv 0 []

/-- The client has a copy of `parseAddrList`. -/
def parseServers (csv : Bytes) : Except IntOverflow (List Address) := parseAddrList csv

def redirectWord : Bytes := "REDIRECT ".toUTF8.toList

/-- The address that a client goes on to, if the reply is a redirect. -/
def redirectTarget (reply : Bytes) : Option (Except IntOverflow (Option Address)) :=
  if redirectWord.isPrefixOf reply then some (Address.parse (reply.drop 9)) else none

/-! ## Numbers -/

/-- The value of a string of digits. -/
def decimalValue (digits : Bytes) : ℕ := Nat.ofDigits 10 (digits.map digitOf).reverse

/-- The printed digits as characters and as bytes. -/
theorem digit_bounds {n : ℕ} {d : Char} (hd : d ∈ Nat.toDigits 10 n) :
    48 ≤ d.toNat ∧ d.toNat ≤ 57 := by
  have hdigit := Nat.isDigit_of_mem_toDigits (by omega) le_rfl hd
  simp only [Char.isDigit, Bool.and_eq_true, decide_eq_true_eq] at hdigit
  exact hdigit

theorem toNat_digit {n : ℕ} {d : Char} (hd : d ∈ Nat.toDigits 10 n) :
    (UInt8.ofNat d.toNat).toNat = d.toNat := by
  exact UInt8.toNat_ofNat_of_lt ((digit_bounds hd).2.trans_lt (by decide))

theorem isDigit_of_mem_decimal {n : ℕ} {c : UInt8} (hc : c ∈ decimal n) : IsDigit c := by
  obtain ⟨d, hd, rfl⟩ := List.mem_map.mp hc
  have hbounds := digit_bounds hd
  rw [IsDigit, UInt8.le_iff_toNat_le, UInt8.le_iff_toNat_le, toNat_digit hd]
  exact hbounds

theorem decimal_ne_nil (n : ℕ) : decimal n ≠ [] := by
  simp [decimal, Nat.toDigits_ne_nil]

theorem decimalValue_decimal (n : ℕ) : decimalValue (decimal n) = n := by
  have hdigits : (decimal n).map digitOf = (Nat.toDigits 10 n).map fun d ↦ d.toNat - 48 := by
    rw [decimal, List.map_map]
    refine List.map_congr_left fun d hd ↦ ?_
    rw [Function.comp_apply, digitOf, toNat_digit hd]
  have hback : Nat.ofDigitChars 10 (Nat.toDigits 10 n) 0 = n := Nat.ofDigitChars_ten_toDigits
  rw [decimalValue, hdigits, ← horner_zero, horner, List.foldl_map]
  simpa only [Nat.ofDigitChars, mul_comm, show '0'.toNat = 48 from rfl] using hback

/-- The value never comes near the end of the range of `int`: a reader that goes on only up
to 65535 multiplies nothing larger. -/
theorem readPort_eq {port : ℕ} (hport : port ≤ 65535) (digits : Bytes) :
    readPort digits port =
      .ok (if ∀ c ∈ digits, IsDigit c then hornerUpTo 10 65535 port (digits.map digitOf)
        else none) := by
  induction digits generalizing port with
  | nil => simp [readPort, hornerUpTo]
  | cons c rest ih =>
      rw [readPort, List.map_cons, hornerUpTo]
      by_cases hc : IsDigit c
      · have hvalue : digitOf c ≤ 9 := by
          have hle := UInt8.le_iff_toNat_le.mp hc.2
          rw [digitOf]
          exact Nat.sub_le_of_le_add hle
        have hinside : ¬ (c < 48 ∨ 57 < c) := by
          rw [not_or, UInt8.not_lt, UInt8.not_lt]
          exact hc
        rw [if_neg hinside, if_neg (by omega)]
        simp only [List.forall_mem_cons, hc, true_and]
        by_cases hover : 65535 < port * 10 + digitOf c
        · rw [if_pos hover, if_pos hover, ite_self]
        · rw [if_neg hover, if_neg hover, ih (Nat.not_lt.mp hover)]
      · have houtside : c < 48 ∨ 57 < c := by
          by_contra hnot
          rw [not_or, UInt8.not_lt, UInt8.not_lt] at hnot
          exact hc hnot
        rw [if_pos houtside, if_neg fun hall ↦ hc (hall c (by simp))]

theorem readPort_zero (digits : Bytes) :
    readPort digits 0 =
      .ok (if (∀ c ∈ digits, IsDigit c) ∧ decimalValue digits ≤ 65535 then
        some (decimalValue digits) else none) := by
  rw [readPort_eq (Nat.zero_le _), hornerUpTo_eq (by omega) (Nat.zero_le _), horner_zero,
    ← decimalValue]
  congr 1
  split_ifs with hall hle hboth hboth hboth
  · rfl
  · exact absurd ⟨hall, hle⟩ hboth
  · exact absurd hboth.2 hle
  · rfl
  · exact absurd hboth.1 hall
  · rfl

/-! ## One address -/

/-- The text is cut at its last colon into a host and the digits of a port. -/
structure IsAddress (s host digits : Bytes) : Prop where
  text : s = host ++ colon :: digits
  last : colon ∉ digits
  host_ne : host ≠ []
  digits_ne : digits ≠ []
  decimal : ∀ c ∈ digits, IsDigit c
  port_pos : 1 ≤ decimalValue digits
  port_le : decimalValue digits ≤ 65535

namespace Address

/-- At the last colon the text is cut, unless nothing stands before or behind it. -/
theorem parse_append_cons {digits : Bytes} (hlast : colon ∉ digits) (host : Bytes) :
    parse (host ++ colon :: digits) =
      if host = [] ∨ digits = [] then .ok none
      else
        match readPort digits 0 with
        | .error e => .error e
        | .ok none => .ok none
        | .ok (some port) =>
            if port = 0 then .ok none else .ok (some ⟨host, UInt16.ofNat port⟩) := by
  have hends : host.length = 0 ∨ (host ++ colon :: digits).length ≤ host.length + 1 ↔
      host = [] ∨ digits = [] := by
    refine or_congr List.length_eq_zero_iff ?_
    rw [List.length_append, List.length_cons, ← List.length_eq_zero_iff]
    omega
  have hdrop : (host ++ colon :: digits).drop (host.length + 1) = digits := by
    rw [← List.drop_drop, List.drop_left]
    rfl
  rw [parse, rfind?_append_cons hlast]
  simp only [hends, hdrop, List.take_left]

theorem parse_of_isAddress {s host digits : Bytes} (h : IsAddress s host digits) :
    parse s = .ok (some ⟨host, UInt16.ofNat (decimalValue digits)⟩) := by
  have hport : decimalValue digits ≠ 0 := Nat.one_le_iff_ne_zero.mp h.port_pos
  rw [h.text, parse_append_cons h.last, if_neg (not_or.mpr ⟨h.host_ne, h.digits_ne⟩),
    readPort_zero, if_pos ⟨h.decimal, h.port_le⟩]
  exact if_neg hport

/-- Every text is refused or has the form of an address; no `int` overflows. -/
theorem parse_cases (s : Bytes) :
    parse s = .ok none ∧ (∀ host digits, ¬ IsAddress s host digits) ∨
      ∃ host digits, IsAddress s host digits := by
  by_cases hform : ∃ host digits, IsAddress s host digits
  · exact Or.inr hform
  · refine Or.inl ⟨?_, fun host digits h ↦ hform ⟨host, digits, h⟩⟩
    by_cases hmem : colon ∈ s
    · obtain ⟨host, digits, rfl, hlast⟩ := eq_append_cons_last hmem
      rw [parse_append_cons hlast, readPort_zero]
      split_ifs with hends hdigits
      · rfl
      · dsimp only
        split_ifs with hzero
        · rfl
        · rw [not_or] at hends
          exact (hform ⟨host, digits, rfl, hlast, hends.1, hends.2, hdigits.1,
            Nat.one_le_iff_ne_zero.mpr hzero, hdigits.2⟩).elim
      · rfl
    · rw [parse, rfind?_of_notMem hmem]

theorem parse_eq_some_iff {s : Bytes} {a : Address} :
    parse s = .ok (some a) ↔
      ∃ digits, IsAddress s a.host digits ∧ decimalValue digits = a.port.toNat := by
  have hcast : ∀ {digits : Bytes}, decimalValue digits ≤ 65535 →
      (UInt16.ofNat (decimalValue digits)).toNat = decimalValue digits :=
    fun hle ↦ UInt16.toNat_ofNat_of_lt (hle.trans_lt (by decide))
  constructor
  · intro hparse
    rcases parse_cases s with ⟨hnone, -⟩ | ⟨host, digits, h⟩
    · simp [hnone] at hparse
    · obtain rfl : (⟨host, UInt16.ofNat (decimalValue digits)⟩ : Address) = a := by
        simpa [parse_of_isAddress h] using hparse
      exact ⟨digits, h, (hcast h.port_le).symm⟩
  · rintro ⟨digits, h, hport⟩
    have hback : UInt16.ofNat (decimalValue digits) = a.port := by
      rw [hport, UInt16.ofNat_toNat]
    rw [parse_of_isAddress h, hback]

/-- A host and a port that an address must have to be read back. -/
structure Proper (a : Address) : Prop where
  host_ne : a.host ≠ []
  port_ne : a.port ≠ 0

theorem Proper.isAddress {a : Address} (ha : a.Proper) :
    IsAddress a.str a.host (Dkvs.decimal a.port.toNat) where
  text := by simp [str]
  last := fun hmem ↦ absurd (isDigit_of_mem_decimal hmem) (by decide)
  host_ne := ha.host_ne
  digits_ne := decimal_ne_nil _
  decimal := fun _ hc ↦ isDigit_of_mem_decimal hc
  port_pos := by
    rw [decimalValue_decimal, Nat.one_le_iff_ne_zero]
    intro hzero
    exact ha.port_ne (UInt16.toNat_inj.mp hzero)
  port_le := by
    rw [decimalValue_decimal]
    exact Nat.le_of_lt_succ a.port.toNat_lt

theorem Proper.parse_str {a : Address} (ha : a.Proper) : parse a.str = .ok (some a) :=
  parse_eq_some_iff.mpr ⟨_, ha.isAddress, decimalValue_decimal _⟩

end Address

/-! ## Lists -/

/-- The items of a list one after another. -/
def addItems : List Bytes → List Address → Except IntOverflow (List Address)
  | [], out => .ok out
  | item :: items, out =>
      match addItem item out with
      | .error e => .error e
      | .ok none => .ok []
      | .ok (some out) => addItems items out

/-- The loop goes through the fields between the commas. -/
theorem parseAddrListFrom_eq {csv : Bytes} {start : ℕ} (hstart : start ≤ csv.length)
    (out : List Address) :
    parseAddrListFrom csv start out = addItems ((csv.drop start).splitOn comma) out := by
  fun_induction parseAddrListFrom csv start out with
  | case1 start out hle hnone e hitem => rw [splitOn_of_find?_eq_none hnone, addItems, hitem]
  | case2 start out hle hnone hitem => rw [splitOn_of_find?_eq_none hnone, addItems, hitem]
  | case3 start out hle hnone out' hitem =>
      rw [splitOn_of_find?_eq_none hnone, addItems, hitem]
      rfl
  | case4 start out hle next hnext e hitem =>
      rw [(splitOn_of_find?_eq_some hnext).2.2, addItems, hitem]
  | case5 start out hle next hnext hitem =>
      rw [(splitOn_of_find?_eq_some hnext).2.2, addItems, hitem]
  | case6 start out hle next hnext out' hitem ih =>
      obtain ⟨-, hlt, hsplit⟩ := splitOn_of_find?_eq_some hnext
      rw [hsplit, addItems, hitem]
      exact ih hlt
  | case7 start out hgt => exact absurd hstart hgt

theorem parseAddrList_eq (csv : Bytes) :
    parseAddrList csv = addItems (csv.splitOn comma) [] :=
  parseAddrListFrom_eq (Nat.zero_le _) []

/-- When all items that are not empty are addresses, they are all collected. -/
theorem addItems_of_parsed {items : List Bytes} {addrs : List Address}
    (h : List.Forall₂ (fun item a ↦ Address.parse item = .ok (some a))
      (items.filter (! ·.isEmpty)) addrs) (out : List Address) :
    addItems items out = .ok (out ++ addrs) := by
  induction items generalizing addrs out with
  | nil =>
      obtain rfl : addrs = [] := List.forall₂_nil_left_iff.mp h
      rw [addItems, List.append_nil]
  | cons item items ih =>
      by_cases hempty : item.isEmpty
      · have hskip : addItem item out = .ok (some out) := if_pos hempty
        rw [List.filter_cons_of_neg (by simpa using hempty)] at h
        rw [addItems, hskip]
        exact ih h out
      · rw [List.filter_cons_of_pos (by simpa using hempty)] at h
        obtain ⟨a, rest, hparse, hrest, rfl⟩ := List.forall₂_cons_left_iff.mp h
        have hadd : addItem item out = .ok (some (out ++ [a])) := by
          rw [addItem, if_neg hempty, hparse]
        rw [addItems, hadd]
        simpa using ih hrest (out ++ [a])

/-- One item that is no address empties the list. -/
theorem addItems_of_refused {items : List Bytes} {item : Bytes} (hmem : item ∈ items)
    (hsome : item ≠ []) (hno : ∀ host digits, ¬ IsAddress item host digits)
    (out : List Address) : addItems items out = .ok [] := by
  induction items generalizing out with
  | nil => simp at hmem
  | cons first items ih =>
      rw [addItems]
      by_cases hempty : first.isEmpty
      · have hskip : addItem first out = .ok (some out) := if_pos hempty
        obtain rfl | hrest := List.mem_cons.mp hmem
        · exact absurd (List.isEmpty_iff.mp hempty) hsome
        · rw [hskip]
          exact ih hrest out
      · rw [addItem, if_neg hempty]
        rcases Address.parse_cases first with ⟨hnone, -⟩ | ⟨host, digits, h⟩
        · rw [hnone]
        · obtain rfl | hrest := List.mem_cons.mp hmem
          · exact (hno host digits h).elim
          · rw [Address.parse_of_isAddress h]
            exact ih hrest _

theorem parseAddrList_of_refused {csv item : Bytes} (hmem : item ∈ csv.splitOn comma)
    (hsome : item ≠ []) (hno : ∀ host digits, ¬ IsAddress item host digits) :
    parseAddrList csv = .ok [] := by
  rw [parseAddrList_eq, addItems_of_refused hmem hsome hno]

theorem Address.comma_notMem_str {a : Address} (hhost : comma ∉ a.host) : comma ∉ a.str := by
  have hport : comma ∉ decimal a.port.toNat :=
    fun hmem ↦ absurd (isDigit_of_mem_decimal hmem) (by decide)
  have hcolon : comma ≠ colon := by decide
  simp [Address.str, hhost, hport, hcolon]

/-- The texts of addresses, separated by commas, are read as the list of the addresses. -/
theorem parseAddrList_intercalate {addrs : List Address}
    (haddrs : ∀ a ∈ addrs, a.Proper ∧ comma ∉ a.host) :
    parseAddrList ([comma].intercalate (addrs.map Address.str)) = .ok addrs := by
  cases addrs with
  | nil =>
      rw [parseAddrList_eq]
      rfl
  | cons first rest =>
      have hfree : ∀ s ∈ (first :: rest).map Address.str, comma ∉ s := by
        intro s hs
        obtain ⟨a, ha, rfl⟩ := List.mem_map.mp hs
        exact Address.comma_notMem_str (haddrs a ha).2
      have hitems : ((first :: rest).map Address.str).filter (! ·.isEmpty) =
          (first :: rest).map Address.str := by
        refine List.filter_eq_self.mpr fun s hs ↦ ?_
        obtain ⟨a, -, rfl⟩ := List.mem_map.mp hs
        simp [Address.str]
      have hparsed : List.Forall₂ (fun item a ↦ Address.parse item = .ok (some a))
          ((first :: rest).map Address.str) (first :: rest) :=
        List.forall₂_map_left_iff.mpr
          (List.forall₂_same.mpr fun a ha ↦ (haddrs a ha).1.parse_str)
      rw [parseAddrList_eq, List.splitOn_intercalate comma hfree (by simp),
        addItems_of_parsed (hitems.symm ▸ hparsed), List.nil_append]

/-- The text of an address is read back; a text is read exactly if it is cut at its last
colon into a host and digits with a value from 1 to 65535, and the `int` that collects the
value never overflows; and a list of addresses comes back in its order. -/
theorem address_text_round_trip :
    (∀ a : Address, a.host ≠ [] → a.port ≠ 0 → Address.parse a.str = .ok (some a)) ∧
    (∀ s, (∃ a, Address.parse s = .ok (some a)) ↔ ∃ host digits, IsAddress s host digits) ∧
    (∀ s a, Address.parse s = .ok (some a) ↔
      ∃ digits, IsAddress s a.host digits ∧ decimalValue digits = a.port.toNat) ∧
    (∀ s e, Address.parse s ≠ .error e) ∧
    ∀ addrs : List Address,
      (∀ a ∈ addrs, a.host ≠ [] ∧ a.port ≠ 0 ∧ comma ∉ a.host) →
        parseAddrList ([comma].intercalate (addrs.map Address.str)) = .ok addrs := by
  refine ⟨fun a hhost hport ↦ Address.Proper.parse_str ⟨hhost, hport⟩, fun s ↦ ?_,
    fun s a ↦ Address.parse_eq_some_iff, fun s e ↦ ?_, fun addrs haddrs ↦ ?_⟩
  · constructor
    · rintro ⟨a, hparse⟩
      obtain ⟨digits, h, -⟩ := Address.parse_eq_some_iff.mp hparse
      exact ⟨a.host, digits, h⟩
    · rintro ⟨host, digits, h⟩
      exact ⟨_, Address.parse_of_isAddress h⟩
  · rcases Address.parse_cases s with ⟨hnone, -⟩ | ⟨host, digits, h⟩
    · simp [hnone]
    · simp [Address.parse_of_isAddress h]
  · refine parseAddrList_intercalate fun a ha ↦ ?_
    obtain ⟨hhost, hport, hfree⟩ := haddrs a ha
    exact ⟨⟨hhost, hport⟩, hfree⟩

/-- `::1:0080` has colons in its host and zeros before its port. -/
example : Address.parse [58, 58, 49, 58, 48, 48, 56, 48] = .ok (some ⟨[58, 58, 49], 80⟩) := by
  decide

/-! ## Redirects -/

theorem redirectTarget_eq_none_iff {reply : Bytes} :
    redirectTarget reply = none ↔ ¬ redirectWord <+: reply := by
  simp [redirectTarget]

/-- No other answer begins like a redirect. -/
theorem not_redirectWord_isPrefix {response : Response} (h : ∀ leader, response ≠ .redirect leader)
    (names : List String) : ¬ redirectWord <+: response.text names := by
  have hword : redirectWord = 82 :: [69, 68, 73, 82, 69, 67, 84, 32] := by decide +kernel
  have hfirst : (response.text names).head? ≠ some 82 := by
    cases response with
    | redirect leader => exact absurd rfl (h leader)
    | value v =>
        have hvalue : "VALUE ".toUTF8.toList = 86 :: [65, 76, 85, 69, 32] := by decide +kernel
        rw [Response.text, hvalue]
        simp
    | _ =>
        rw [Response.text]
        decide +kernel
  rintro ⟨tail, htail⟩
  exact hfirst (by rw [← htail, hword]; rfl)

end Dkvs
