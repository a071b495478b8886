import Mathlib.Data.List.Basic
import Xv6.Sh.Parse

/-!
# The language of the shell

The tokens of a line, and the grammar of the commands.

    line  ::= pipe '&'* [';' line]
    pipe  ::= exec ['|' pipe]
    exec  ::= '(' line ')' redir* | redir* (word redir*)*
    redir ::= ('<' | '>' | '>>') word

A command without a block has at most nine words.  A derivation comes with the command
that it stands for: each `&` puts a command into the background, and a redirection
is put around what the earlier ones have been put around.
-/

namespace Xv6

namespace Sh

/-- A token, a word with its text. -/
inductive Tok where
  /-- `<` -/
  | input
  /-- `>` -/
  | output
  /-- `>>` -/
  | append
  /-- `|` -/
  | bar
  /-- `&` -/
  | amp
  /-- `;` -/
  | semi
  /-- `(` -/
  | opening
  /-- `)` -/
  | closing
  | word (text : List UInt8)
  deriving DecidableEq, Repr

/-- The token of a symbol that stands for itself. -/
def symbolTok (c : UInt8) : Tok :=
  if c = 60 then .input else if c = 124 then .bar else if c = 38 then .amp
  else if c = 59 then .semi else if c = 40 then .opening else .closing

/-- The tokens of a text, longest match first. -/
def tokens : List UInt8 → List Tok
  | [] => []
  | c :: cs =>
      if isSpace c then tokens cs
      else if c = 62 then
        if cs.head? = some 62 then .append :: tokens cs.tail else .output :: tokens cs
      else if isSymbol c then symbolTok c :: tokens cs
      else .word (c :: cs.takeWhile inWord) :: tokens (cs.dropWhile inWord)
termination_by cs => cs.length
decreasing_by
  all_goals simp only [List.length_cons]
  · omega
  · have := List.length_tail (l := cs)
    omega
  · omega
  · omega
  · have := (List.dropWhile_sublist (p := inWord) (l := cs)).length_le
    omega

/-- A redirection of a file descriptor. -/
structure Redir where
  file : List UInt8
  mode : ℕ
  fd : ℕ
  deriving DecidableEq, Repr

/-- `redir` -/
inductive IsRedir : List Tok → Redir → Prop
  | input (file : List UInt8) : IsRedir [.input, .word file] ⟨file, rdonly, 0⟩
  | output (file : List UInt8) : IsRedir [.output, .word file] ⟨file, wronlyCreate, 1⟩
  | append (file : List UInt8) : IsRedir [.append, .word file] ⟨file, wronlyCreate, 1⟩

/-- `redir*` -/
inductive Redirs : List Tok → List Redir → Prop
  | nil : Redirs [] []
  | cons {xs ys : List Tok} {r : Redir} {rs : List Redir} (h : IsRedir xs r)
      (hrest : Redirs ys rs) : Redirs (xs ++ ys) (r :: rs)

/-- `(word redir*)*`, with all words and all redirections. -/
inductive Args : List Tok → List (List UInt8) → List Redir → Prop
  | nil : Args [] [] []
  | cons {xs ys : List Tok} {text : List UInt8} {texts : List (List UInt8)}
      {rs rs' : List Redir} (h : Redirs xs rs) (hrest : Args ys texts rs') :
      Args (.word text :: (xs ++ ys)) (text :: texts) (rs ++ rs')

/-- A command with redirections, the first innermost. -/
def wrap (cmd : Cmd (List UInt8)) (rs : List Redir) : Cmd (List UInt8) :=
  rs.foldl (fun cmd r => .redir cmd r.file r.mode r.fd) cmd

/-- A command put into the background a number of times. -/
def backs {ω : Type} (cmd : Cmd ω) : ℕ → Cmd ω
  | 0 => cmd
  | n + 1 => backs (.back cmd) n

/-- The nonterminals for commands. -/
inductive Nonterminal where
  | line
  | pipe
  | exec
  deriving DecidableEq, Repr

/-- The tokens are derivable from the nonterminal, with this command. -/
inductive Derives : Nonterminal → List Tok → Cmd (List UInt8) → Prop
  | block {xs ys : List Tok} {cmd : Cmd (List UInt8)} {rs : List Redir}
      (h : Derives .line xs cmd) (hrs : Redirs ys rs) :
      Derives .exec (.opening :: (xs ++ .closing :: ys)) (wrap cmd rs)
  | simple {xs ys : List Tok} {texts : List (List UInt8)} {rs rs' : List Redir}
      (hrs : Redirs xs rs) (hargs : Args ys texts rs') (hfew : texts.length ≤ 9) :
      Derives .exec (xs ++ ys) (wrap (.exec texts) (rs ++ rs'))
  | last {xs : List Tok} {cmd : Cmd (List UInt8)} (h : Derives .exec xs cmd) :
      Derives .pipe xs cmd
  | pipe {xs ys : List Tok} {left right : Cmd (List UInt8)} (h : Derives .exec xs left)
      (hrest : Derives .pipe ys right) : Derives .pipe (xs ++ .bar :: ys) (.pipe left right)
  | alone {xs : List Tok} {cmd : Cmd (List UInt8)} {n : ℕ} (h : Derives .pipe xs cmd) :
      Derives .line (xs ++ List.replicate n .amp) (backs cmd n)
  | list {xs ys : List Tok} {left right : Cmd (List UInt8)} {n : ℕ} (h : Derives .pipe xs left)
      (hrest : Derives .line ys right) :
      Derives .line (xs ++ (List.replicate n .amp ++ .semi :: ys)) (.list (backs left n) right)

/-! ## Words in the buffer -/

/-- The command with its words read in another way. -/
def Cmd.map {ω ω' : Type} (f : ω → ω') : Cmd ω → Cmd ω'
  | .exec argv => .exec (argv.map f)
  | .redir cmd file mode fd => .redir (cmd.map f) (f file) mode fd
  | .pipe left right => .pipe (left.map f) (right.map f)
  | .list left right => .list (left.map f) (right.map f)
  | .back cmd => .back (cmd.map f)

/-- The C string that starts at an offset. -/
def cstring (buf : List UInt8) (q : ℕ) : List UInt8 :=
  (buf.drop q).takeWhile (· ≠ 0)

/-- The command with the C strings that `argv` and `file` point to. -/
def Cmd.strings (buf : List UInt8) (cmd : Cmd Span) : Cmd (List UInt8) :=
  cmd.map fun w => cstring buf w.1

end Sh

end Xv6
