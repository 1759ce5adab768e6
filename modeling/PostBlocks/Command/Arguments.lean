import PostBlocks.Post.Stage

/-!
# Command lines

A command line names a command, its operands and its options. Options may stand anywhere after the
command, and those of the program also in front of it; a long option takes its value after an equals
sign or as the next argument, a short one also without a space. Nothing is given twice, and after
two hyphens everything is an operand. A command line that starts with a file is one for `convert`.

Reading goes left to right and stops at the first mistake, or at a request for help or the version.
-/

namespace PostBlocks

/-- A command with its operands and options. -/
inductive Command where
  | convert (input : String) (source target output : Option String)
  | inspect (path : String) (stage : Option Stage)
  | importing (input : String) (pages : Bool) (output : Option String)
deriving DecidableEq, Repr, Inhabited

/-- A command line that makes sense; without a command it may still ask for the list of stages. -/
structure Invocation where
  listStages : Bool
  settingsPath : Option String
  command : Option Command
deriving DecidableEq, Repr, Inhabited

/-- Why a command line is not carried out. -/
inductive Refusal where
  | usage
  | help
  | version
deriving DecidableEq, Repr, Inhabited

namespace Arguments

/-- An option: with a value, or a mere switch. -/
structure Opt where
  name : String
  short : Option Char
  hasValue : Bool
deriving DecidableEq, Repr

/-- What may stand on a command line: its options, and for each operand what it may be. -/
structure Grammar where
  options : List Opt
  operands : List (String → Bool)
  hasVersion : Bool

/-- What has been read: switches, options with values, operands in order. -/
structure Parsed where
  switches : List String
  values : List (String × String)
  operands : List String
deriving DecidableEq, Repr, Inhabited

/-- The options that go with every command. -/
def globalOptions : List Opt :=
  [⟨"list-transforms", none, false⟩, ⟨"config", none, true⟩]

/-- The option for the output file. -/
def outputOption : Opt :=
  ⟨"output", some 'o', true⟩

/-- The program without a command. -/
def rootGrammar : Grammar :=
  ⟨globalOptions, [], true⟩

/-- Any operand will do. -/
def anything (_ : String) : Bool :=
  true

/-- The command `convert`. -/
def convertGrammar : Grammar :=
  ⟨[⟨"from", none, true⟩, ⟨"to", none, true⟩, outputOption] ++ globalOptions, [anything], false⟩

/-- The command `inspect`. -/
def inspectGrammar : Grammar :=
  ⟨globalOptions, [anything, fun stage ↦ (Stage.ofName? stage).isSome], false⟩

/-- The command `import`. -/
def importGrammar : Grammar :=
  ⟨[⟨"pages", none, false⟩, outputOption] ++ globalOptions, [anything], false⟩

/-- The words that a command line for a command starts with. -/
def commandNames : List String :=
  ["convert", "inspect", "import", "help"]

/-! ### Options -/

namespace Parsed

/-- Nothing yet. -/
def empty : Parsed :=
  ⟨[], [], []⟩

/-- An option has been given. -/
def has (p : Parsed) (name : String) : Bool :=
  p.switches.contains name || p.values.any (·.1 == name)

/-- A switch, which must not have been given before. -/
def addSwitch (p : Parsed) (name : String) : Except Refusal Parsed :=
  if p.has name then .error .usage else .ok { p with switches := name :: p.switches }

/-- An option with its value, which must not have been given before. -/
def addValue (p : Parsed) (name value : String) : Except Refusal Parsed :=
  if p.has name then .error .usage else .ok { p with values := (name, value) :: p.values }

/-- The value of an option. -/
def value? (p : Parsed) (name : String) : Option String :=
  (p.values.find? (·.1 == name)).map (·.2)

end Parsed

/-- An argument that is read as an option: it starts with a hyphen and has more to it. -/
def looksLikeOption (arg : String) : Bool :=
  match arg.toList with
  | '-' :: _ :: _ => true
  | _ => false

/-- The value of an option that comes as the next argument. -/
def nextValue : List String → Except Refusal (String × List String)
  | [] => .error .usage
  | arg :: args => if looksLikeOption arg then .error .usage else .ok (arg, args)

/-- A name and what follows the first equals sign in an argument. -/
def splitEquals (cs : List Char) : String × Option String :=
  match cs.span (· != '=') with
  | (name, _ :: value) => (.ofList name, some (.ofList value))
  | (name, []) => (.ofList name, none)

/-- One long option, given without its hyphens; the arguments after it come second. -/
def longOption (g : Grammar) (p : Parsed) (cs : List Char) (args : List String) :
    Except Refusal (Parsed × List String) :=
  let (name, attached) := splitEquals cs
  match g.options.find? (·.name == name), attached with
  | some o, some value =>
    if o.hasValue then (p.addValue name value).map (·, args) else .error .usage
  | some o, none =>
    if o.hasValue then do
      let (value, args) ← nextValue args
      return (← p.addValue name value, args)
    else (p.addSwitch name).map (·, args)
  | none, none =>
    if name = "help" then .error .help
    else if name = "version" ∧ g.hasVersion then .error .version
    else .error .usage
  | none, some _ => .error .usage

/-- One short option, given without its hyphen; what is left of the argument is its value. -/
def shortOption (g : Grammar) (p : Parsed) (c : Char) (rest : List Char) (args : List String) :
    Except Refusal (Parsed × List String) :=
  match g.options.find? (·.short == some c), rest with
  | some o, [] => do
    let (value, args) ← nextValue args
    return (← p.addValue o.name value, args)
  | some o, '=' :: value => (p.addValue o.name (.ofList value)).map (·, args)
  | some o, value => (p.addValue o.name (.ofList value)).map (·, args)
  | none, _ =>
    if c = 'h' then .error .help
    else if c = 'V' ∧ g.hasVersion then .error .version
    else .error .usage

theorem length_nextValue_le {args rest : List String} {v : String}
    (h : nextValue args = .ok (v, rest)) : rest.length ≤ args.length := by
  cases args with
  | nil => simp [nextValue] at h
  | cons a args =>
    simp only [nextValue] at h
    split at h
    · simp at h
    · simp only [Except.ok.injEq, Prod.mk.injEq] at h
      simp [← h.2]

/-- An option without a value takes no argument. -/
theorem map_pair_ok {α β : Type} {x : Except Refusal α} {args rest : β} {a : α}
    (h : x.map (·, args) = .ok (a, rest)) : rest = args := by
  cases x with
  | error e => simp [Except.map] at h
  | ok a =>
    simp only [Except.map, Except.ok.injEq, Prod.mk.injEq] at h
    exact h.2.symm

/-- An option with a value takes one argument at most. -/
theorem length_bind_nextValue_le {args rest : List String} {p q : Parsed} {name : String}
    (h : (nextValue args >>= fun va ↦ p.addValue name va.1 >>= fun q ↦ pure (q, va.2))
      = .ok (q, rest)) : rest.length ≤ args.length := by
  cases hv : nextValue args with
  | error e => simp [hv, bind, Except.bind] at h
  | ok va =>
    cases hp : p.addValue name va.1 with
    | error e => simp [hv, hp, bind, Except.bind] at h
    | ok q =>
      simp only [hv, hp, bind, Except.bind, pure, Except.pure, Except.ok.injEq,
        Prod.mk.injEq] at h
      exact h.2 ▸ length_nextValue_le hv

/-- So reading options ends: each of them leaves no more arguments than there were. -/
theorem length_longOption_le {g : Grammar} {p q : Parsed} {cs : List Char}
    {args rest : List String} (h : longOption g p cs args = .ok (q, rest)) :
    rest.length ≤ args.length := by
  unfold longOption at h
  split at h
  split at h
  · split at h
    · exact (map_pair_ok h) ▸ Nat.le_refl _
    · simp at h
  · split at h
    · exact length_bind_nextValue_le h
    · exact (map_pair_ok h) ▸ Nat.le_refl _
  · split at h
    · simp at h
    · split at h <;> simp at h
  · simp at h

theorem length_shortOption_le {g : Grammar} {p q : Parsed} {c : Char} {cs : List Char}
    {args rest : List String} (h : shortOption g p c cs args = .ok (q, rest)) :
    rest.length ≤ args.length := by
  unfold shortOption at h
  split at h
  · exact length_bind_nextValue_le h
  · exact (map_pair_ok h) ▸ Nat.le_refl _
  · exact (map_pair_ok h) ▸ Nat.le_refl _
  · split at h
    · simp at h
    · split at h <;> simp at h

/-- One more operand, if it may be one in its place. -/
def addOperand (g : Grammar) (p : Parsed) (arg : String) : Except Refusal Parsed :=
  match g.operands[p.operands.length]? with
  | some accepts =>
    if accepts arg then .ok { p with operands := p.operands ++ [arg] } else .error .usage
  | none => .error .usage

/-- Operands only. -/
def readOperands (g : Grammar) (p : Parsed) : List String → Except Refusal Parsed
  | [] => .ok p
  | arg :: args => do readOperands g (← addOperand g p arg) args

/-- Options and operands up to the first operand for which `stop` holds, which comes second with all
that follows it. -/
def read (g : Grammar) (stop : String → Bool) (p : Parsed) (args : List String) :
    Except Refusal (Parsed × List String) :=
  match args with
  | [] => .ok (p, [])
  | arg :: args =>
    match arg.toList with
    | ['-', '-'] => (readOperands g p args).map (·, [])
    | '-' :: '-' :: cs =>
      match _h : longOption g p cs args with
      | .ok (q, rest) => read g stop q rest
      | .error e => .error e
    | '-' :: c :: cs =>
      match _h : shortOption g p c cs args with
      | .ok (q, rest) => read g stop q rest
      | .error e => .error e
    | _ =>
      if stop arg then .ok (p, arg :: args)
      else do read g stop (← addOperand g p arg) args
termination_by args.length
decreasing_by
  · have := length_longOption_le _h
    simp only [List.length_cons]
    omega
  · have := length_shortOption_le _h
    simp only [List.length_cons]
    omega
  · simp

/-! ### Commands -/

/-- A command from what its line holds. -/
def commandOf (name : String) (p : Parsed) : Except Refusal Command :=
  match name, p.operands with
  | "convert", [input] =>
    .ok (.convert input (p.value? "from") (p.value? "to") (p.value? "output"))
  | "inspect", [path] => .ok (.inspect path none)
  | "inspect", [path, stage] =>
    match Stage.ofName? stage with
    | some stage => .ok (.inspect path (some stage))
    | none => .error .usage
  | "import", [input] => .ok (.importing input (p.has "pages") (p.value? "output"))
  | _, _ => .error .usage

/-- The grammar of a command. -/
def grammarOf? : String → Option Grammar
  | "convert" => some convertGrammar
  | "inspect" => some inspectGrammar
  | "import" => some importGrammar
  | _ => none

/-- The line of a command, after what stands in front of it. -/
def readCommand (front : Parsed) (name : String) (args : List String) :
    Except Refusal Invocation :=
  match grammarOf? name with
  | some g => do
    let (p, _) ← read g (fun _ ↦ false) .empty args
    let command ← commandOf name p
    return ⟨front.has "list-transforms" || p.has "list-transforms",
      (p.value? "config").or (front.value? "config"), some command⟩
  | none =>
    match args with
    | [] => .error .help
    | [topic] => if commandNames.contains topic then .error .help else .error .usage
    | _ => .error .usage

/-- A command line as it stands. -/
def readLine (args : List String) : Except Refusal Invocation := do
  match ← read rootGrammar commandNames.contains .empty args with
  | (front, name :: rest) => readCommand front name rest
  | (front, []) =>
    if front = .empty then throw .usage
    else return ⟨front.has "list-transforms", front.value? "config", none⟩

/-- A command line starts with an operand that names no command. -/
def startsWithFile : List String → Bool
  | arg :: _ => !arg.startsWith "-" && !commandNames.contains arg
  | [] => false

/-- A command line; one that starts with a file is one for `convert`. -/
def parse (args : List String) : Except Refusal Invocation :=
  match readLine args with
  | .ok invocation => .ok invocation
  | .error refusal => if startsWithFile args then readLine ("convert" :: args) else .error refusal

end Arguments

end PostBlocks
