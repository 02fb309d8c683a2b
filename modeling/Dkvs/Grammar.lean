import Dkvs.Transport

/-!
# The grammar of client lines

A line is a verb in capital or small letters, perhaps a key and perhaps a value. Blanks
separate the verb and the key and may stand before the verb. The grammar says what a line
looks like; the parser finds out by two scans that cut tokens off.
-/

namespace Dkvs

def Blanks (s : Bytes) : Prop := ∀ b ∈ s, isBlank b = true

def Word (s : Bytes) : Prop := s ≠ [] ∧ ∀ b ∈ s, isBlank b = false

/-- What may follow a word that goes on as long as possible. -/
def Ends (s : Bytes) : Prop := ∀ b ∈ s.head?, isBlank b = true

/-- A name of capital letters, spelled with capital and small letters. -/
def Spells (verb name : Bytes) : Prop := List.Forall₂ (fun b c ↦ b = c ∨ b = c + 32) verb name

/-- The value of a `SET`: what follows the key, without one space. -/
def valueOf : Bytes → Bytes
  | 32 :: value => value
  | tail => tail

inductive Grammar : Bytes → ClientRequest → Prop
  | ping {front verb rest : Bytes} (hfront : Blanks front) (hverb : Spells verb pingVerb)
      (hrest : Ends rest) : Grammar (front ++ (verb ++ rest)) .ping
  | status {front verb rest : Bytes} (hfront : Blanks front) (hverb : Spells verb statusVerb)
      (hrest : Ends rest) : Grammar (front ++ (verb ++ rest)) .status
  | quit {front verb rest : Bytes} (hfront : Blanks front) (hverb : Spells verb quitVerb)
      (hrest : Ends rest) : Grammar (front ++ (verb ++ rest)) .quit
  | set {front verb gap key tail : Bytes} (hfront : Blanks front) (hverb : Spells verb setVerb)
      (hgap : Blanks gap) (hsome : gap ≠ []) (hkey : Word key) (htail : Ends tail) :
      Grammar (front ++ (verb ++ (gap ++ (key ++ tail)))) (.command ⟨.set, key, valueOf tail⟩)
  | get {front verb gap key tail : Bytes} (hfront : Blanks front) (hverb : Spells verb getVerb)
      (hgap : Blanks gap) (hsome : gap ≠ []) (hkey : Word key) (htail : Blanks tail) :
      Grammar (front ++ (verb ++ (gap ++ (key ++ tail)))) (.command ⟨.get, key, []⟩)
  | del {front verb gap key tail : Bytes} (hfront : Blanks front)
      (hverb : Spells verb delVerb ∨ Spells verb deleteVerb)
      (hgap : Blanks gap) (hsome : gap ≠ []) (hkey : Word key) (htail : Blanks tail) :
      Grammar (front ++ (verb ++ (gap ++ (key ++ tail)))) (.command ⟨.del, key, []⟩)

/-! ## Verbs -/

/-- The name has capital letters only. -/
def Capitals (name : Bytes) : Prop := ∀ c ∈ name, 65 ≤ c ∧ c ≤ 90

instance (name : Bytes) : Decidable (Capitals name) :=
  inferInstanceAs (Decidable (∀ c ∈ name, _))

theorem capitals_of_mem : ∀ name ∈ [pingVerb, statusVerb, quitVerb, setVerb, getVerb, delVerb,
    deleteVerb], Capitals name := by
  decide +kernel

theorem upper_eq_iff {b c : UInt8} (hc : 65 ≤ c ∧ c ≤ 90) : upper b = c ↔ b = c ∨ b = c + 32 := by
  unfold upper
  grind

theorem isBlank_of_capital {b c : UInt8} (hc : 65 ≤ c ∧ c ≤ 90) (hb : b = c ∨ b = c + 32) :
    isBlank b = false := by
  unfold isBlank
  grind

theorem spells_iff {verb name : Bytes} (hname : Capitals name) :
    Spells verb name ↔ verb.map upper = name := by
  induction verb generalizing name with
  | nil => cases name <;> simp [Spells]
  | cons b verb ih =>
      cases name with
      | nil => simp [Spells]
      | cons c name =>
          have hc := hname c (by simp)
          have hrest := ih fun x hx ↦ hname x (List.mem_cons_of_mem c hx)
          rw [Spells] at hrest
          rw [Spells, List.forall₂_cons, hrest, List.map_cons, List.cons.injEq, upper_eq_iff hc]

theorem equalsIgnoreCase_iff {verb name : Bytes} (hname : Capitals name) :
    equalsIgnoreCase verb name = true ↔ Spells verb name := by
  have hupper : name.map upper = name := by
    conv_rhs => rw [← List.map_id name]
    exact List.map_congr_left fun c hc ↦ (upper_eq_iff (hname c hc)).mpr (Or.inl rfl)
  rw [spells_iff hname, equalsIgnoreCase, hupper, decide_eq_true_iff]
  constructor
  · exact fun h ↦ h.2
  · intro h
    exact ⟨by rw [← h, List.length_map], h⟩

theorem Spells.refl (name : Bytes) : Spells name name :=
  List.forall₂_same.mpr fun _ _ ↦ Or.inl rfl

/-- A verb compares like the name it spells. -/
theorem equalsIgnoreCase_of_spells {verb name : Bytes} (hname : Capitals name)
    (hverb : Spells verb name) (other : Bytes) :
    equalsIgnoreCase verb other = equalsIgnoreCase name other := by
  have hlength : verb.length = name.length := hverb.length_eq
  rw [equalsIgnoreCase, equalsIgnoreCase, hlength, (spells_iff hname).mp hverb,
    (spells_iff hname).mp (Spells.refl name)]

theorem word_of_spells {verb name : Bytes} (hname : Capitals name) (hsome : name ≠ [])
    (hverb : Spells verb name) : Word verb := by
  refine ⟨?_, ?_⟩
  · rintro rfl
    exact hsome (List.forall₂_nil_left_iff.mp hverb)
  · intro b hb
    obtain ⟨i, hi, rfl⟩ := List.getElem_of_mem hb
    have hi' : i < name.length := hverb.length_eq ▸ hi
    exact isBlank_of_capital (hname _ (List.getElem_mem hi')) (hverb.get hi hi')

/-! ## Tokens -/

/-- A token that is not empty is a word between blanks and the rest of the line. -/
theorem takeToken_eq_iff {line token rest : Bytes} :
    takeToken line = (token, rest) ∧ token ≠ [] ↔
      Word token ∧ Ends rest ∧ ∃ front, Blanks front ∧ line = front ++ (token ++ rest) := by
  constructor
  · rintro ⟨htoken, hsome⟩
    obtain ⟨rfl, rfl⟩ : (trimLeft line).takeWhile (fun b ↦ !isBlank b) = token ∧
        (trimLeft line).dropWhile (fun b ↦ !isBlank b) = rest := by
      simpa [takeToken] using htoken
    refine ⟨⟨hsome, fun b hb ↦ ?_⟩, ?_, line.takeWhile isBlank, ?_, ?_⟩
    · simpa using List.mem_takeWhile_imp hb
    · intro b hb
      have hstop := List.head?_dropWhile_not (fun b ↦ !isBlank b) (trimLeft line)
      rw [Option.mem_def.mp hb] at hstop
      simpa using hstop
    · exact fun b hb ↦ List.mem_takeWhile_imp hb
    · rw [List.takeWhile_append_dropWhile]
      exact List.takeWhile_append_dropWhile.symm
  · rintro ⟨hword, hends, front, hfront, rfl⟩
    exact ⟨takeToken_eq front token rest hfront hword.1 hword.2 hends, hword.1⟩

/-- Blanks after a word, and another word. -/
theorem ends_gap {gap rest : Bytes} (hgap : Blanks gap) (hsome : gap ≠ []) :
    Ends (gap ++ rest) := by
  cases gap with
  | nil => exact absurd rfl hsome
  | cons b gap =>
      intro c hc
      obtain rfl : b = c := by simpa using hc
      exact hgap b (by simp)

theorem gap_ne_nil {gap key tail : Bytes} (hends : Ends (gap ++ (key ++ tail))) (hkey : Word key) :
    gap ≠ [] := by
  rintro rfl
  obtain ⟨hsome, hfree⟩ := hkey
  cases key with
  | nil => exact hsome rfl
  | cons b key =>
      have hblank := hends b rfl
      rw [hfree b (by simp)] at hblank
      simp at hblank

theorem trimLeft_eq_nil_iff {s : Bytes} : trimLeft s = [] ↔ Blanks s := by
  rw [trimLeft, List.dropWhile_eq_nil_iff]
  rfl

theorem valueOf_eq (tail : Bytes) :
    (if tail.head? = some 32 then tail.tail else tail) = valueOf tail := by
  cases tail with
  | nil => rfl
  | cons b tail =>
      by_cases hb : b = 32
      · subst hb
        rfl
      · rw [if_neg (by simpa using hb), valueOf]
        simpa using hb

/-! ## The parser -/

/-- A key after a verb. -/
theorem key_of_takeToken {rest key tail : Bytes} (hends : Ends rest)
    (htoken : takeToken rest = (key, tail)) (hkey : key ≠ []) :
    ∃ gap, Blanks gap ∧ gap ≠ [] ∧ Word key ∧ Ends tail ∧ rest = gap ++ (key ++ tail) := by
  obtain ⟨hword, htail, gap, hgap, rfl⟩ := takeToken_eq_iff.mp ⟨htoken, hkey⟩
  exact ⟨gap, hgap, gap_ne_nil hends hword, hword, htail, rfl⟩

theorem grammar_of_parse {line : Bytes} {request : ClientRequest}
    (h : parseClientRequest line = some request) : Grammar line request := by
  have hspells : ∀ {verb name : Bytes}, name ∈ [pingVerb, statusVerb, quitVerb, setVerb, getVerb,
      delVerb, deleteVerb] → equalsIgnoreCase verb name = true → Spells verb name :=
    fun hname ↦ (equalsIgnoreCase_iff (capitals_of_mem _ hname)).mp
  rcases htoken : takeToken line with ⟨verb, rest⟩
  rcases hnext : takeToken rest with ⟨key, tail⟩
  unfold parseClientRequest at h
  simp only [htoken, hnext, valueOf_eq, List.isEmpty_iff] at h
  by_cases hverb : verb = []
  · simp [hverb] at h
  · obtain ⟨-, hends, front, hfront, rfl⟩ := takeToken_eq_iff.mp ⟨htoken, hverb⟩
    rw [if_neg hverb] at h
    split_ifs at h with hping hstatus hquit hset hkey hget hnokey hop
    · obtain rfl := Option.some.inj h
      exact .ping hfront (hspells (by simp) hping) hends
    · obtain rfl := Option.some.inj h
      exact .status hfront (hspells (by simp) hstatus) hends
    · obtain rfl := Option.some.inj h
      exact .quit hfront (hspells (by simp) hquit) hends
    · obtain rfl := Option.some.inj h
      obtain ⟨gap, hgap, hsome, hword, htail, rfl⟩ := key_of_takeToken hends hnext hkey
      exact .set hfront (hspells (by simp) hset) hgap hsome hword htail
    · obtain rfl := Option.some.inj h
      rw [not_or, not_not, trimLeft_eq_nil_iff] at hnokey
      obtain ⟨gap, hgap, hsome, hword, -, rfl⟩ := key_of_takeToken hends hnext hnokey.1
      exact .get hfront (hspells (by simp) hop) hgap hsome hword hnokey.2
    · obtain rfl := Option.some.inj h
      rw [not_or, not_not, trimLeft_eq_nil_iff] at hnokey
      obtain ⟨gap, hgap, hsome, hword, -, rfl⟩ := key_of_takeToken hends hnext hnokey.1
      refine .del hfront ?_ hgap hsome hword hnokey.2
      rcases hget with hget | hdel | hdelete
      · exact absurd hget hop
      · exact Or.inl (hspells (by simp) hdel)
      · exact Or.inr (hspells (by simp) hdelete)

/-- The first token of a line that begins with a verb. -/
theorem takeToken_spells {front verb name rest : Bytes} (hfront : Blanks front)
    (hname : name ∈ [pingVerb, statusVerb, quitVerb, setVerb, getVerb, delVerb, deleteVerb])
    (hverb : Spells verb name) (hrest : Ends rest) :
    takeToken (front ++ (verb ++ rest)) = (verb, rest) ∧ verb.isEmpty = false ∧
      ∀ other, equalsIgnoreCase verb other = equalsIgnoreCase name other := by
  have hcapitals := capitals_of_mem name hname
  have hsome : name ≠ [] := by
    rintro rfl
    revert hname
    decide
  have hword := word_of_spells hcapitals hsome hverb
  exact ⟨takeToken_eq front verb rest hfront hword.1 hword.2 hrest, by simpa using hword.1,
    equalsIgnoreCase_of_spells hcapitals hverb⟩

theorem Blanks.ends {s : Bytes} (hs : Blanks s) : Ends s :=
  fun b hb ↦ hs b (List.mem_of_mem_head? hb)

/-- Both tokens of a line with a verb and a key. -/
theorem takeToken_command {front verb name gap key tail : Bytes} (hfront : Blanks front)
    (hname : name ∈ [pingVerb, statusVerb, quitVerb, setVerb, getVerb, delVerb, deleteVerb])
    (hverb : Spells verb name) (hgap : Blanks gap) (hsome : gap ≠ []) (hkey : Word key)
    (htail : Ends tail) :
    takeToken (front ++ (verb ++ (gap ++ (key ++ tail)))) = (verb, gap ++ (key ++ tail)) ∧
      verb.isEmpty = false ∧
      (∀ other, equalsIgnoreCase verb other = equalsIgnoreCase name other) ∧
      takeToken (gap ++ (key ++ tail)) = (key, tail) ∧ key.isEmpty = false := by
  obtain ⟨htoken, hverb', hsame⟩ := takeToken_spells hfront hname hverb (ends_gap hgap hsome)
  exact ⟨htoken, hverb', hsame, takeToken_eq gap key tail hgap hkey.1 hkey.2 htail,
    by simpa using hkey.1⟩

theorem parse_of_grammar {line : Bytes} {request : ClientRequest} (h : Grammar line request) :
    parseClientRequest line = some request := by
  unfold parseClientRequest
  cases h with
  | ping hfront hverb hrest =>
      obtain ⟨htoken, hsome, hsame⟩ := takeToken_spells hfront (by simp) hverb hrest
      simp only [htoken, hsome, hsame]
      rfl
  | status hfront hverb hrest =>
      obtain ⟨htoken, hsome, hsame⟩ := takeToken_spells hfront (by simp) hverb hrest
      simp only [htoken, hsome, hsame]
      rfl
  | quit hfront hverb hrest =>
      obtain ⟨htoken, hsome, hsame⟩ := takeToken_spells hfront (by simp) hverb hrest
      simp only [htoken, hsome, hsame]
      rfl
  | set hfront hverb hgap hsome hkey htail =>
      obtain ⟨htoken, hverb', hsame, hnext, hkey'⟩ :=
        takeToken_command hfront (by simp) hverb hgap hsome hkey htail
      simp only [htoken, hverb', hsame, hnext, hkey', valueOf_eq]
      rfl
  | get hfront hverb hgap hsome hkey htail =>
      obtain ⟨htoken, hverb', hsame, hnext, hkey'⟩ :=
        takeToken_command hfront (by simp) hverb hgap hsome hkey htail.ends
      simp only [htoken, hverb', hsame, hnext, hkey', trimLeft_eq_nil_iff.mpr htail]
      rfl
  | del hfront hverb hgap hsome hkey htail =>
      rcases hverb with hverb | hverb
      · obtain ⟨htoken, hverb', hsame, hnext, hkey'⟩ :=
          takeToken_command hfront (by simp) hverb hgap hsome hkey htail.ends
        simp only [htoken, hverb', hsame, hnext, hkey', trimLeft_eq_nil_iff.mpr htail]
        rfl
      · obtain ⟨htoken, hverb', hsame, hnext, hkey'⟩ :=
          takeToken_command hfront (by simp) hverb hgap hsome hkey htail.ends
        simp only [htoken, hverb', hsame, hnext, hkey', trimLeft_eq_nil_iff.mpr htail]
        rfl

/-- `SET key value`. -/
def setRequest (key value : Bytes) : Bytes := setVerb ++ 32 :: (key ++ 32 :: value)

/-- `GET key`. -/
def getRequest (key : Bytes) : Bytes := getVerb ++ 32 :: key

/-- Any word is a key, and what follows one space is the value. -/
theorem parseClientRequest_set {key value : Bytes} (hkey : Word key) :
    parseClientRequest (setRequest key value) = some (.command ⟨.set, key, value⟩) := by
  have hline : Grammar ([] ++ (setVerb ++ ([32] ++ (key ++ 32 :: value))))
      (.command ⟨.set, key, valueOf (32 :: value)⟩) :=
    .set (by simp [Blanks]) (.refl _) (by simp [Blanks, isBlank]) (by simp) hkey
      (by simp [Ends, isBlank])
  exact parse_of_grammar hline

theorem parseClientRequest_get {key : Bytes} (hkey : Word key) :
    parseClientRequest (getRequest key) = some (.command ⟨.get, key, []⟩) := by
  have hline : Grammar ([] ++ (getVerb ++ ([32] ++ (key ++ [])))) (.command ⟨.get, key, []⟩) :=
    .get (by simp [Blanks]) (.refl _) (by simp [Blanks, isBlank]) (by simp) hkey
      (by simp [Blanks])
  rw [List.append_nil] at hline
  exact parse_of_grammar hline

theorem commandOf_setRequest {key : Bytes} (hkey : Word key) (value : Bytes) :
    commandOf (setRequest key value) = some ⟨.set, key, value⟩ := by
  rw [commandOf, parseClientRequest_set hkey]

theorem commandOf_getRequest {key : Bytes} (hkey : Word key) :
    commandOf (getRequest key) = some ⟨.get, key, []⟩ := by
  rw [commandOf, parseClientRequest_get hkey]

theorem Grammar.key_word {line : Bytes} {cmd : Command} (h : Grammar line (.command cmd)) :
    Word cmd.key := by
  cases h with
  | set _ _ _ _ hkey _ => exact hkey
  | get _ _ _ _ hkey _ => exact hkey
  | del _ _ _ _ hkey _ => exact hkey

theorem length_valueOf (tail : Bytes) : (valueOf tail).length ≤ tail.length := by
  rw [← valueOf_eq]
  split_ifs with hspace
  · exact tail.tail_sublist.length_le
  · exact le_rfl

/-- The key and the value are parts of the line. -/
theorem Grammar.length_le {line : Bytes} {cmd : Command} (h : Grammar line (.command cmd)) :
    cmd.key.length + cmd.value.length ≤ line.length := by
  cases h with
  | @set _ _ _ _ tail _ _ _ _ _ _ =>
      have hvalue := length_valueOf tail
      simp only [List.length_append]
      omega
  | get _ _ _ _ _ _ =>
      simp only [List.length_append, List.length_nil]
      omega
  | del _ _ _ _ _ _ =>
      simp only [List.length_append, List.length_nil]
      omega

theorem commandOf_length {line : Bytes} {cmd : Command} (h : commandOf line = some cmd) :
    cmd.key.length + cmd.value.length ≤ line.length := by
  unfold commandOf at h
  split at h
  · rename_i hparse
    obtain rfl := Option.some.inj h
    exact (grammar_of_parse hparse).length_le
  · simp at h

/-- The parser accepts exactly the grammar, and returns what the grammar says. So a key
that is returned is a word, and a `SET` with any word as key brings any value through. -/
theorem parse_iff_grammar (line : Bytes) :
    (∀ request, parseClientRequest line = some request ↔ Grammar line request) ∧
      (parseClientRequest line = none ↔ ∀ request, ¬ Grammar line request) ∧
      (∀ cmd, parseClientRequest line = some (.command cmd) → Word cmd.key) ∧
      ∀ key value, Word key →
        parseClientRequest (setVerb ++ 32 :: (key ++ 32 :: value)) =
          some (.command ⟨.set, key, value⟩) := by
  have hiff : ∀ request, parseClientRequest line = some request ↔ Grammar line request :=
    fun request ↦ ⟨grammar_of_parse, parse_of_grammar⟩
  refine ⟨hiff, ?_, fun cmd hcmd ↦ (grammar_of_parse hcmd).key_word, fun key value hkey ↦ ?_⟩
  · rw [Option.eq_none_iff_forall_ne_some]
    exact forall_congr' fun request ↦ not_congr (hiff request)
  · exact parseClientRequest_set hkey

end Dkvs
