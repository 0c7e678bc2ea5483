import EbLang.Build
import EbLang.Error.Excerpt

/-!
# The command line

    ebc [OPTIONS] <INPUT>

builds the file `INPUT` and prints a line for each file of the build.  An option is given at most
once; the value of an option follows it, or an equals sign; after `--` everything is an input.
-/

namespace EbLang

/-- What a command line asks for. -/
structure Request where
  input : Option Path := none
  outBuild : Option Path := none
  outExec : Option String := none
  force : Bool := false
  noCache : Bool := false
  verbose : Bool := false

inductive Command where
  | build (r : Request)
  | help
  | version

namespace CommandLine

/-! ## Reading -/

def setInput (r : Request) (value : String) : Option Request :=
  if r.input.isSome || value.isEmpty then none else some { r with input := some ⟨value⟩ }

def setValue (r : Request) (name value : String) : Option Request :=
  match name with
  | "out-build" =>
    if r.outBuild.isSome || value.isEmpty then none
    else some { r with outBuild := some ⟨value⟩ }
  | "out-exec" => if r.outExec.isSome then none else some { r with outExec := some value }
  | _ => none

def setFlag (r : Request) (name : String) : Option Request :=
  match name with
  | "force" => if r.force then none else some { r with force := true }
  | "no-cache" => if r.noCache then none else some { r with noCache := true }
  | "verbose" => if r.verbose then none else some { r with verbose := true }
  | _ => none

def hasValue (name : String) : Bool := name == "out-build" || name == "out-exec"

inductive Argument where
  | value (text : String)
  | long (name : String) (value : Option String)
  /-- One letter or more after a single dash. -/
  | short (letters : List Char)
  /-- `--` alone. -/
  | escape

def Argument.ofText (text : String) : Argument :=
  match text.toList with
  | '-' :: '-' :: [] => .escape
  | '-' :: '-' :: cs =>
    let value := cs.dropWhile (· != '=')
    .long (String.ofList (cs.takeWhile (· != '=')))
      (if value.isEmpty then none else some (String.ofList (value.drop 1)))
  | '-' :: c :: cs => .short (c :: cs)
  | _ => .value text

def readLetters (r : Request) : List Char → Option (Request ⊕ Command)
  | [] => some (.inl r)
  | 'v' :: cs => do readLetters (← setFlag r "verbose") cs
  | 'h' :: _ => some (.inr .help)
  | 'V' :: _ => some (.inr .version)
  | _ :: _ => none

def readArguments (r : Request) : List String → Option Command
  | [] => if r.input.isSome then some (.build r) else none
  | text :: texts =>
    match Argument.ofText text with
    | .value value => do readArguments (← setInput r value) texts
    | .escape => do return .build (← texts.foldlM setInput r)
    | .short letters =>
      match readLetters r letters with
      | some (.inl r) => readArguments r texts
      | some (.inr command) => some command
      | none => none
    | .long "help" none => some .help
    | .long "version" none => some .version
    | .long name (some value) => do readArguments (← setValue r name value) texts
    | .long name none =>
      if hasValue name then
        match texts with
        | next :: texts =>
          match Argument.ofText next with
          | .value value => do readArguments (← setValue r name value) texts
          | _ => none
        | [] => none
      else do readArguments (← setFlag r name) texts

def read (args : List String) : Option Command := do
  match ← readArguments {} args with
  | .build r => if r.input.isSome then some (.build r) else none
  | command => some command

/-! ## Running -/

/-- What a command leaves to be seen. -/
structure Outcome where
  exitCode : Nat
  stdout : List String := []
  stderr : String := ""
  /-- Whether something was built. -/
  isBuild : Bool := false

/-- How the command is used. -/
def usage : List String :=
  ["Usage: ebc [OPTIONS] <INPUT>",
    "",
    "Arguments:",
    "  <INPUT>  Root source file",
    "",
    "Options:",
    "      --out-build <OUT_BUILD>  Directory for IR listings and sidecars",
    "      --out-exec <OUT_EXEC>    Name of the executable to produce",
    "      --force                  Analyse every file even when its sidecar is up to date",
    "      --no-cache               Neither read nor write sidecars",
    "  -v, --verbose                Log every pipeline stage",
    "  -h, --help                   Print help",
    "  -V, --version                Print version"]

def help : List String :=
  "Analyses an eb program and writes the IR listing of every file" :: "" :: usage

def fileLine (options : Options) (f : SourceFile) : String :=
  (if f.fromCache then "Cached " else "Analysed ") ++ f.name ++ " -> " ++
    (options.listingPath f.name).text

/-- A fraction below one, given by its digits, without zeros at the end. -/
def fractionText (width n : Nat) : String :=
  let digits := padLeft '0' width (Nat.toDigits 10 n)
  let kept := (digits.reverse.dropWhile (· == '0')).reverse
  if kept.isEmpty then "" else "." ++ String.ofList kept

/-- A time in nanoseconds, in the largest unit of which it has one. -/
def durationText (nanos : Nat) : String :=
  let inUnit (width : Nat) (unit : String) :=
    toString (nanos / tenPow width) ++ fractionText width (nanos % tenPow width) ++ unit
  if nanos ≥ tenPow 9 then inUnit 9 "s"
  else if nanos ≥ tenPow 6 then inUnit 6 "ms"
  else if nanos ≥ tenPow 3 then inUnit 3 "µs"
  else toString nanos ++ "ns"

def options (r : Request) : Options where
  outBuild := r.outBuild.getD ⟨"out_build"⟩
  outExec := r.outExec
  force := r.force
  useCache := !r.noCache

def build (r : Request) (input : Path) (store : FileStore) : Outcome × FileStore :=
  if !store.isFile input then
    ({ exitCode := 1, stderr := "Error: input file " ++ input.text ++ " does not exist\n" }, store)
  else
    let (result, shared) := (Build.compile input).run.run (Build.start (options r) store)
    let b := shared.world
    match result with
    | .ok _ =>
      ({ exitCode := 0, stdout := b.files.map (fileLine b.options), isBuild := true }, b.store)
    | .error e => ({ exitCode := 1, stderr := e.display (Build.sourceOf b.store e) }, b.store)

def run (args : List String) (store : FileStore) : Outcome × FileStore :=
  match read args with
  | none => ({ exitCode := 2, stderr := "\n".intercalate usage ++ "\n" }, store)
  | some .help => ({ exitCode := 0, stdout := help }, store)
  | some .version => ({ exitCode := 0, stdout := ["ebc 0.1.0"] }, store)
  | some (.build r) =>
    match r.input with
    | none => ({ exitCode := 2 }, store)
    | some input => build r input store

end CommandLine

end EbLang
