import HttpEcho.Proofs.CommandLine.Values

/-! How an option is spelled.

An option with its value is one argument or two, in five spellings. All of them are read alike
(`Reading.take_arguments`): what was begun before is looked at first, and then the option is set.
What differs is when the value is looked at, so what is compared is what comes out once nothing is
pending any more. -/
namespace HttpEcho.CommandLine

open Argument (dash equals ofText)

/-! ### The arguments of an option -/

/-- A value that can stand in every spelling: nothing takes it for something else. -/
structure Argument.IsValue (value : Argument) : Prop where
  nonempty : value ≠ []
  no_dash : value.head? ≠ some dash
  no_equals : value.head? ≠ some equals

/-- The ways to write an option with its value. -/
inductive Spelling where
  /-- The name after two dashes, and the value in the next argument. -/
  | named
  /-- The name and the value with an equals sign between them. -/
  | namedEquals
  /-- The letter after one dash, and the value in the next argument. -/
  | lettered
  /-- The letter and the value with an equals sign between them. -/
  | letteredEquals
  /-- The letter and the value. -/
  | attached
  deriving DecidableEq

/-- An option as it is written on a command line. -/
structure Written where
  flag : Flag
  value : Argument
  spelling : Spelling
  isValue : value.IsValue

namespace Flag

/-- The octet that the option's letter is. -/
def octet (f : Flag) : UInt8 := UInt8.ofNat f.letter.toNat

/-- The option's name after two dashes. -/
def long (f : Flag) : Argument := dash :: dash :: ofText f.name

end Flag

namespace Written

/-- The option and its value. -/
def option (w : Written) : Flag × Argument := (w.flag, w.value)

/-- The arguments that are written. -/
def arguments (w : Written) : List Argument :=
  match w.spelling with
  | .named => [w.flag.long, w.value]
  | .namedEquals => [w.flag.long ++ equals :: w.value]
  | .lettered => [[dash, w.flag.octet], w.value]
  | .letteredEquals => [dash :: w.flag.octet :: equals :: w.value]
  | .attached => [dash :: w.flag.octet :: w.value]

end Written

/-! ### The shapes of these arguments -/

theorem Word.ofArgument_plain {a : Argument} (h : a.head? ≠ some dash) :
    Word.ofArgument a = .plain a := by
  match a with
  | [] => rfl
  | [b] => rfl
  | b :: c :: rest => exact if_pos fun hb => h (congrArg some hb)

theorem Word.ofArgument_long (f : Flag) : Word.ofArgument f.long = .named (ofText f.name) none := by
  cases f <;> decide

theorem Word.ofArgument_long_equals (f : Flag) (value : Argument) :
    Word.ofArgument (f.long ++ equals :: value) = .named (ofText f.name) (some value) := by
  cases f <;> rfl

theorem Word.ofArgument_octet (f : Flag) (rest : Argument) :
    Word.ofArgument (dash :: f.octet :: rest) = .lettered f.octet rest := by
  cases f <;> rfl

theorem Flag.ofName?_name (f : Flag) : Flag.ofName? f.name = some f := by
  cases f <;> decide

theorem Flag.ofLetter?_octet (f : Flag) : Flag.ofLetter? (Char.ofNat f.octet.toNat) = some f := by
  cases f <;> decide

/-! ### A reading between two options -/

namespace Reading
variable {r r' : Reading} {addressed : Bool}

/-- A reading that takes options, none of which is without its value. -/
structure Ready (r : Reading) (addressed : Bool) : Prop where
  separated : r.separated = false
  awaiting : ∀ f, r.pending ≠ .awaiting f
  hasAddress : r.hasAddress = addressed

/-- What is given, once what is pending was looked at. -/
def looked (r : Reading) : Except UsageError Given :=
  r.settle.map (·.given)

/-- Where reading leads: what is given in the end, and a reading that is ready for more. -/
structure LeadsTo (x : Except UsageError Reading) (addressed : Bool) (y : Except UsageError Given) :
    Prop where
  looked : x >>= Reading.looked = y
  ready : ∀ r, x = .ok r → r.Ready addressed

theorem LeadsTo.error (e : UsageError) : LeadsTo (.error e) addressed (.error e) :=
  ⟨rfl, nofun⟩

theorem LeadsTo.ok {y : Except UsageError Given} (hr : r.Ready addressed) (hy : r.looked = y) :
    LeadsTo (.ok r) addressed y := by
  refine ⟨hy, ?_⟩
  rintro _ ⟨⟩
  exact hr

theorem LeadsTo.bind {x : Except UsageError Reading} {y : Except UsageError Given}
    {k : Reading → Except UsageError Reading} {z : Given → Except UsageError Given} {b : Bool}
    (hx : LeadsTo x addressed y) (hk : ∀ r, r.Ready addressed → LeadsTo (k r) b (r.looked >>= z)) :
    LeadsTo (x >>= k) b (y >>= z) := by
  obtain ⟨rfl, hready⟩ := hx
  cases x with
  | error e => exact .error e
  | ok r => exact hk r (hready r rfl)

/-! ### Looking at what is pending -/

theorem ready_given (given : Given) : Ready { given } given.address.isSome :=
  ⟨rfl, nofun, Bool.or_false _⟩

theorem address_of_set {g g' : Given} {f : Flag} {value : Argument} (h : g.set f value = .ok g') :
    g'.address = g.address := by
  obtain ⟨-, s, -, rfl⟩ := Given.set_eq_ok_iff.mp h
  exact g.address_assign s

/-- What looking at what is pending can come to. -/
inductive Settles (r : Reading) : Given → Prop
  | none : r.pending = .none → Settles r r.given
  | value {f value given} : r.pending = .value f value → r.given.set f value = .ok given →
      Settles r given
  | address {value} (text) : r.pending = .address value →
      Settles r { r.given with address := some text }

/-- When what is pending was looked at, nothing is pending any more. -/
theorem settle_inv (h : r.settle = .ok r') :
    ∃ given, r.Settles given ∧ r' = { given, separated := r.separated } := by
  obtain ⟨given, pending, separated⟩ := r
  cases pending with
  | none =>
    cases h
    exact ⟨given, .none rfl, rfl⟩
  | awaiting f => cases h
  | value f value =>
    obtain ⟨g, hset, h⟩ := bind_eq_ok_iff.mp h
    cases h
    exact ⟨g, .value rfl hset, rfl⟩
  | address value =>
    obtain ⟨text, -, h⟩ := bind_eq_ok_iff.mp h
    cases h
    exact ⟨_, .address text rfl, rfl⟩

theorem Ready.settle (hr : r.Ready addressed) (h : r.settle = .ok r') :
    ∃ given : Given, r' = { given } ∧ given.address.isSome = addressed := by
  obtain ⟨given, hsettles, rfl⟩ := settle_inv h
  refine ⟨given, by rw [hr.separated], Eq.trans ?_ hr.hasAddress⟩
  rw [Reading.hasAddress]
  cases hsettles with
  | none hpending => rw [hpending, Bool.or_false]
  | value hpending hset => rw [hpending, Bool.or_false, address_of_set hset]
  | address text hpending => rw [hpending, Bool.or_true, Option.isSome_some]

/-! ### One option -/

section Option
variable {f : Flag} {value : Argument}

theorem take_long (hr : r.separated = false) (f : Flag) : r.take f.long = r.takeFlag f none := by
  simp only [take, hr, Bool.false_eq_true, if_false, Word.ofArgument_long, takeNamed,
    Argument.text?_ofText, Option.bind_some, Flag.ofName?_name]

theorem take_long_equals (hr : r.separated = false) (f : Flag) (value : Argument) :
    r.take (f.long ++ equals :: value) = r.takeFlag f (some value) := by
  simp only [take, hr, Bool.false_eq_true, if_false, Word.ofArgument_long_equals, takeNamed,
    Argument.text?_ofText, Option.bind_some, Flag.ofName?_name]

theorem take_octet (hr : r.separated = false) (f : Flag) (rest : Argument) :
    r.take (dash :: f.octet :: rest) = r.takeFlag f (attached rest) := by
  simp only [take, hr, Bool.false_eq_true, if_false, Word.ofArgument_octet, takeLettered,
    Flag.ofLetter?_octet]

theorem attached_of_isValue (h : value.IsValue) : attached value = some value := by
  obtain ⟨b, rest, rfl⟩ := List.exists_cons_of_ne_nil h.nonempty
  exact if_neg fun hb => h.no_equals (congrArg some hb)

/-- A value in the same argument is looked at right away. -/
theorem takeFlag_some (hr : r.Ready addressed) (f : Flag) (value : Argument) :
    LeadsTo (r.takeFlag f (some value)) addressed (r.looked >>= fun g => g.set f value) := by
  unfold takeFlag looked
  cases hsettle : r.settle with
  | error e => exact .error e
  | ok r' =>
    obtain ⟨given, rfl, rfl⟩ := hr.settle hsettle
    change LeadsTo (given.set f value >>= fun g => .ok (Reading.mk g .none false)) _
      (given.set f value)
    cases hset : given.set f value with
    | error e => exact .error e
    | ok g => exact .ok (address_of_set hset ▸ ready_given g) rfl

/-- A value in the next argument is pending. -/
theorem takeFlag_none (hr : r.Ready addressed) (f : Flag) (hvalue : value.IsValue) :
    LeadsTo (r.takeFlag f none >>= fun r => r.take value) addressed
      (r.looked >>= fun g => g.set f value) := by
  unfold takeFlag looked
  cases hsettle : r.settle with
  | error e => exact .error e
  | ok r' =>
    obtain ⟨given, rfl, rfl⟩ := hr.settle hsettle
    have htake : Reading.take { given, pending := .awaiting f } value =
        .ok { given, pending := .value f value } := by
      simp only [take, Bool.false_eq_true, if_false, Word.ofArgument_plain hvalue.no_dash]
    change LeadsTo (Reading.take { given, pending := .awaiting f } value) _ (given.set f value)
    rw [htake]
    refine .ok ⟨rfl, nofun, Bool.or_false _⟩ ?_
    change (given.set f value >>= fun g => .ok (Reading.mk g .none false)).map _ = given.set f value
    cases given.set f value <;> rfl

/-- **Every spelling of an option is read alike.** -/
theorem take_arguments (hr : r.Ready addressed) (w : Written) :
    LeadsTo (w.arguments.foldlM take r) addressed
      (r.looked >>= fun g => g.set w.flag w.value) := by
  obtain ⟨f, value, spelling, hvalue⟩ := w
  cases spelling with
  | named =>
    change LeadsTo (r.take f.long >>= fun r => r.take value >>= pure) addressed _
    simp only [bind_pure, take_long hr.separated]
    exact takeFlag_none hr f hvalue
  | namedEquals =>
    change LeadsTo (r.take (f.long ++ equals :: value) >>= pure) addressed _
    rw [bind_pure, take_long_equals hr.separated]
    exact takeFlag_some hr f value
  | lettered =>
    change LeadsTo (r.take [dash, f.octet] >>= fun r => r.take value >>= pure) addressed _
    simp only [bind_pure, take_octet hr.separated]
    exact takeFlag_none hr f hvalue
  | letteredEquals =>
    change LeadsTo (r.take (dash :: f.octet :: equals :: value) >>= pure) addressed _
    rw [bind_pure, take_octet hr.separated]
    exact takeFlag_some hr f value
  | attached =>
    change LeadsTo (r.take (dash :: f.octet :: value) >>= pure) addressed _
    rw [bind_pure, take_octet hr.separated, attached_of_isValue hvalue]
    exact takeFlag_some hr f value

end Option

/-! ### Options and the address -/

/-- Options in a row are read as their values say, whatever their spelling is. -/
theorem take_written (hr : r.Ready addressed) (ws : List Written) :
    LeadsTo ((ws.flatMap Written.arguments).foldlM take r) addressed
      (r.looked >>= fun g => g.setAll (ws.map Written.option)) := by
  induction ws generalizing r with
  | nil => exact .ok hr (bind_pure _).symm
  | cons w ws ih =>
    have hsplit : (r.looked >>= fun g => g.setAll ((w :: ws).map Written.option)) =
        (r.looked >>= fun g => g.set w.flag w.value) >>=
          fun g => g.setAll (ws.map Written.option) := (bind_assoc _ _ _).symm
    rw [List.flatMap_cons, List.foldlM_append, hsplit]
    exact (take_arguments hr w).bind fun r hr => ih hr

/-- The address is an argument that is no option. It is looked at like a value. -/
theorem take_address {address : Argument} (hr : r.Ready false)
    (haddress : address.head? ≠ some dash) :
    LeadsTo (r.take address) true (r.looked >>= fun g =>
      (textValue address).map fun text => { g with address := some text }) := by
  have hplain : r.take address = r.takePlain address := by
    simp only [take, hr.separated, Bool.false_eq_true, if_false, Word.ofArgument_plain haddress]
    split
    · exact absurd ‹_› (hr.awaiting _)
    · rfl
  rw [hplain, takePlain, hr.hasAddress]
  unfold looked
  cases hsettle : r.settle with
  | error e => exact .error e
  | ok r' =>
    obtain ⟨given, rfl, -⟩ := hr.settle hsettle
    refine .ok (r := { given, pending := .address address }) ⟨rfl, nofun, Bool.or_true _⟩ ?_
    change (textValue address >>= _).map _ = (textValue address).map _
    cases textValue address <;> rfl

end Reading

theorem parse_eq (arguments : List Argument) :
    parse arguments = (arguments.foldlM Reading.take {} >>= Reading.looked) >>= Given.complete := by
  rw [parse, bind_assoc]
  congr 1
  funext r
  rw [Reading.looked]
  cases r.settle <;> rfl

/-- **What an address among options gives**, whatever the spellings are: the options before it are
looked at first, then the address, and then the options behind it. -/
theorem parse_written {address : Argument} (haddress : address.head? ≠ some dash)
    (before after : List Written) :
    parse (before.flatMap Written.arguments ++ address :: after.flatMap Written.arguments) =
      ((Given.setAll {} (before.map Written.option) >>= fun g =>
        (textValue address).map fun text => { g with address := some text }) >>= fun g =>
          g.setAll (after.map Written.option)) >>= Given.complete := by
  have hbefore : Reading.LeadsTo ((before.flatMap Written.arguments).foldlM Reading.take {}) false
      (Given.setAll {} (before.map Written.option)) :=
    Reading.take_written (Reading.ready_given {}) before
  have hreads := (hbefore.bind fun r hr => Reading.take_address hr haddress).bind fun r hr =>
    Reading.take_written hr after
  have hsplit : (before.flatMap Written.arguments ++ address ::
      after.flatMap Written.arguments).foldlM Reading.take {} =
      ((before.flatMap Written.arguments).foldlM Reading.take {} >>= fun r => r.take address) >>=
        fun r => (after.flatMap Written.arguments).foldlM Reading.take r := by
    rw [List.foldlM_append, bind_assoc]
    rfl
  rw [parse_eq, hsplit, hreads.looked]

end HttpEcho.CommandLine
