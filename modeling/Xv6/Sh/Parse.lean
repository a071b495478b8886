import Xv6.Param

/-!
# The parser of the shell

The second half of `sh.c`.  The buffer holds the line and the zero byte that ends it;
pointers into it are offsets.  A command keeps the two ends of each of its words until
`nulterminate` stores a zero byte at the upper ends, so commands are over a type of words:
pairs of offsets for what the parser builds, texts for what it means.

The functions that call each other take a bound on the depth of the calls, and the loops
a bound on their rounds.  Running out of it is an error of its own, next to the
errors of the source.  `malloc` always has memory.
-/

namespace Xv6

namespace Sh

/-- A command with words in `ω`. -/
inductive Cmd (ω : Type) where
  /-- `struct execcmd`, with the entries of `argv` before the first null pointer. -/
  | exec (argv : List ω)
  | redir (cmd : Cmd ω) (file : ω) (mode fd : ℕ)
  | pipe (left right : Cmd ω)
  | list (left right : Cmd ω)
  | back (cmd : Cmd ω)
  deriving DecidableEq, Repr

/-- The two ends of a word in the buffer. -/
abbrev Span := ℕ × ℕ

/-- Why the parser does not return. -/
inductive Error where
  /-- `leftovers`, then `syntax` -/
  | leftovers
  /-- `missing file for redirection` -/
  | file
  /-- `parseblock` -/
  | block
  /-- `syntax - missing )` -/
  | paren
  /-- `syntax` -/
  | syn
  /-- `too many args` -/
  | args
  /-- The bound is used up. -/
  | deep
  deriving DecidableEq, Repr

/-- `MAXARGS` -/
abbrev maxargs : ℕ := 10

/-- `O_RDONLY` -/
abbrev rdonly : ℕ := 0

/-- `O_WRONLY|O_CREATE` -/
abbrev wronlyCreate : ℕ := 513

/-! ## Characters -/

/-- `strchr(whitespace, c)` -/
def isSpace (c : UInt8) : Bool :=
  c = 32 ∨ c = 9 ∨ c = 13 ∨ c = 10 ∨ c = 11

/-- `strchr(symbols, c)` -/
def isSymbol (c : UInt8) : Bool :=
  c = 60 ∨ c = 124 ∨ c = 62 ∨ c = 38 ∨ c = 59 ∨ c = 40 ∨ c = 41

/-- The characters of words. -/
def inWord (c : UInt8) : Bool :=
  !isSpace c && !isSymbol c

/-- `*s` -/
def byteAt (buf : List UInt8) (s : ℕ) : UInt8 :=
  buf.getD s 0

/-- `while(s < es && p(*s)) s++`, with `n` for `es - s`. -/
def scan (p : UInt8 → Bool) (buf : List UInt8) : ℕ → ℕ → ℕ
  | 0, s => s
  | n + 1, s => if p (byteAt buf s) then scan p buf n (s + 1) else s

/-! ## Tokens -/

/-- What `gettoken` returns and stores: its value, `*q`, `*eq` and `*ps`. -/
structure Got where
  ret : UInt8
  q : ℕ
  eq : ℕ
  next : ℕ
  deriving DecidableEq, Repr

/-- The value of `gettoken` and the end of the token that starts at `s`. -/
def token (buf : List UInt8) (es s : ℕ) : UInt8 × ℕ :=
  let c := byteAt buf s
  if c = 0 then (c, s)
  else if c = 62 then
    -- `>` or `>>`, the latter as `+`
    if byteAt buf (s + 1) = 62 then (43, s + 2) else (c, s + 1)
  else if isSymbol c then (c, s + 1)
  -- anything else is a word, `a`
  else (97, scan inWord buf (es - s) s)

/-- `gettoken` -/
def gettoken (buf : List UInt8) (es ps : ℕ) : Got :=
  let q := scan isSpace buf (es - ps) ps
  let (ret, eq) := token buf es q
  ⟨ret, q, eq, scan isSpace buf (es - eq) eq⟩

/-- `peek`: the value and `*ps`. -/
def peek (buf : List UInt8) (es ps : ℕ) (toks : List UInt8) : Bool × ℕ :=
  let s := scan isSpace buf (es - ps) ps
  (byteAt buf s ≠ 0 ∧ byteAt buf s ∈ toks, s)

/-! ## Commands -/

/-- `cmd->argv[argc] = q`, where `cmd` is the node that `parseexec` has allocated: the
one below the redirections. -/
def Cmd.addArg {ω : Type} (w : ω) : Cmd ω → Cmd ω
  | .exec argv => .exec (argv ++ [w])
  | .redir cmd file mode fd => .redir (cmd.addArg w) file mode fd
  | cmd => cmd

section

variable (buf : List UInt8) (es : ℕ)

/-- `parseredirs` -/
def parseredirs : ℕ → Cmd Span → ℕ → Except Error (Cmd Span × ℕ)
  | 0, _, _ => .error .deep
  | k + 1, cmd, ps =>
      match peek buf es ps [60, 62] with
      | (false, ps) => .ok (cmd, ps)
      | (true, ps) =>
          let op := gettoken buf es ps
          let file := gettoken buf es op.next
          if file.ret ≠ 97 then .error .file
          else if op.ret = 60 then
            parseredirs k (.redir cmd (file.q, file.eq) rdonly 0) file.next
          else if op.ret = 62 then
            parseredirs k (.redir cmd (file.q, file.eq) wronlyCreate 1) file.next
          else if op.ret = 43 then
            parseredirs k (.redir cmd (file.q, file.eq) wronlyCreate 1) file.next
          else parseredirs k cmd file.next

/-- The loop of `parseexec`. -/
def parseargs : ℕ → Cmd Span → ℕ → ℕ → Except Error (Cmd Span × ℕ)
  | 0, _, _, _ => .error .deep
  | k + 1, ret, argc, ps =>
      match peek buf es ps [124, 41, 38, 59] with
      | (true, ps) => .ok (ret, ps)
      | (false, ps) =>
          let got := gettoken buf es ps
          if got.ret = 0 then .ok (ret, got.next)
          else if got.ret ≠ 97 then .error .syn
          else if argc + 1 ≥ maxargs then .error .args
          else
            match parseredirs buf es k (ret.addArg (got.q, got.eq)) got.next with
            | .error e => .error e
            | .ok (ret, ps) => parseargs k ret (argc + 1) ps

/-- The loop of `parseline`. -/
def parsebacks : ℕ → Cmd Span → ℕ → Except Error (Cmd Span × ℕ)
  | 0, _, _ => .error .deep
  | k + 1, cmd, ps =>
      match peek buf es ps [38] with
      | (false, ps) => .ok (cmd, ps)
      | (true, ps) => parsebacks k (.back cmd) (gettoken buf es ps).next

mutual

/-- `parseline` -/
def parseline : ℕ → ℕ → Except Error (Cmd Span × ℕ)
  | 0, _ => .error .deep
  | k + 1, ps =>
      match parsepipe k ps with
      | .error e => .error e
      | .ok (cmd, ps) =>
          match parsebacks buf es k cmd ps with
          | .error e => .error e
          | .ok (cmd, ps) =>
              match peek buf es ps [59] with
              | (false, ps) => .ok (cmd, ps)
              | (true, ps) =>
                  match parseline k (gettoken buf es ps).next with
                  | .error e => .error e
                  | .ok (right, ps) => .ok (.list cmd right, ps)

/-- `parsepipe` -/
def parsepipe : ℕ → ℕ → Except Error (Cmd Span × ℕ)
  | 0, _ => .error .deep
  | k + 1, ps =>
      match parseexec k ps with
      | .error e => .error e
      | .ok (cmd, ps) =>
          match peek buf es ps [124] with
          | (false, ps) => .ok (cmd, ps)
          | (true, ps) =>
              match parsepipe k (gettoken buf es ps).next with
              | .error e => .error e
              | .ok (right, ps) => .ok (.pipe cmd right, ps)

/-- `parseexec` -/
def parseexec : ℕ → ℕ → Except Error (Cmd Span × ℕ)
  | 0, _ => .error .deep
  | k + 1, ps =>
      match peek buf es ps [40] with
      | (true, ps) => parseblock k ps
      | (false, ps) =>
          match parseredirs buf es k (.exec []) ps with
          | .error e => .error e
          | .ok (ret, ps) => parseargs buf es k ret 0 ps

/-- `parseblock` -/
def parseblock : ℕ → ℕ → Except Error (Cmd Span × ℕ)
  | 0, _ => .error .deep
  | k + 1, ps =>
      match peek buf es ps [40] with
      | (false, _) => .error .block
      | (true, ps) =>
          match parseline k (gettoken buf es ps).next with
          | .error e => .error e
          | .ok (cmd, ps) =>
              match peek buf es ps [41] with
              | (false, _) => .error .paren
              | (true, ps) => parseredirs buf es k cmd (gettoken buf es ps).next

end

end

/-- `nulterminate`: the buffer afterwards. -/
def nulterminate : Cmd Span → List UInt8 → List UInt8
  | .exec argv, buf => argv.foldl (fun buf w => buf.set w.2 0) buf
  | .redir cmd file _ _, buf => (nulterminate cmd buf).set file.2 0
  | .pipe left right, buf => nulterminate right (nulterminate left buf)
  | .list left right, buf => nulterminate right (nulterminate left buf)
  | .back cmd, buf => nulterminate cmd buf

/-- `parsecmd` of the string `s`: the command, and the buffer into which it points. -/
def parsecmd (s : List UInt8) : Except Error (Cmd Span × List UInt8) :=
  let buf := s ++ [0]
  let es := s.length
  match parseline buf es (4 * es + 5) 0 with
  | .error e => .error e
  | .ok (cmd, ps) =>
      if (peek buf es ps []).2 ≠ es then .error .leftovers
      else .ok (cmd, nulterminate cmd buf)

end Sh

end Xv6
