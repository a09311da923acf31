import XFireDB.Lib.Quoting
import XFireDB.RString
import XFireDB.Disk

/-!
# The statements of the disk

`disk.c` builds its statements with `xfiredb_sprintf` from eight templates in
which `'%s'` stands for a string.  SQLite reads a string literal up to the next
single quote that is not doubled; the functions of `disk.c` double nothing.
-/

namespace XFireDB

open Lib

/-- The `#define`d queries. -/
inductive DiskQuery
  | store
  | updateHm
  | updateList
  | updateString
  | deleteString
  | deleteList
  | deleteHm
  | deleteSet
deriving DecidableEq

def DiskQuery.text : DiskQuery → RStr
  | .store =>
    lit "INSERT INTO xfiredb_data (db_key, db_secondary_key, db_type, db_value) VALUES (" ++
      lit "'%s'" ++ lit ", " ++ lit "'%s'" ++ lit ", " ++ lit "'%s'" ++ lit ", " ++ lit "'%s'" ++
      lit ");"
  | .updateHm =>
    lit "UPDATE xfiredb_data SET db_value = " ++ lit "'%s'" ++ lit " WHERE db_key = " ++
      lit "'%s'" ++ lit " AND db_secondary_key = " ++ lit "'%s'" ++ lit ";"
  | .updateList =>
    lit "UPDATE xfiredb_data SET db_value = " ++ lit "'%s'" ++
      lit " WHERE ROWID IN (SELECT ROWID FROM xfiredb_data WHERE db_key = " ++ lit "'%s'" ++
      lit " AND db_value = " ++ lit "'%s'" ++ lit " AND db_type = " ++ lit "'list'" ++
      lit " LIMIT 1);"
  | .updateString =>
    lit "UPDATE xfiredb_data SET db_value = " ++ lit "'%s'" ++ lit " WHERE db_key = " ++
      lit "'%s'" ++ lit " AND db_type = " ++ lit "'string'" ++ lit ";"
  | .deleteString =>
    lit "DELETE FROM xfiredb_data WHERE db_type = " ++ lit "'string'" ++ lit " AND db_key = " ++
      lit "'%s'" ++ lit ";"
  | .deleteList =>
    lit "DELETE FROM xfiredb_data WHERE ROWID in (SELECT ROWID FROM xfiredb_data WHERE db_key = " ++
      lit "'%s'" ++ lit " AND db_value = " ++ lit "'%s'" ++ lit " AND db_type = " ++
      lit "'list'" ++ lit " LIMIT 1);"
  | .deleteHm =>
    lit "DELETE FROM xfiredb_data WHERE db_type = " ++ lit "'hashmap'" ++ lit " AND db_key = " ++
      lit "'%s'" ++ lit " AND db_secondary_key = " ++ lit "'%s'" ++ lit ";"
  | .deleteSet =>
    lit "DELETE FROM xfiredb_data WHERE db_type = " ++ lit "'set'" ++ lit " AND db_key = " ++
      lit "'%s'" ++ lit " AND db_secondary_key = " ++ lit "'%s'" ++ lit ";"

/-- `sprintf` with `%s` conversions. -/
def sprintf : RStr → List RStr → RStr
  | 37 :: 115 :: rest, arg :: args => arg ++ sprintf rest args
  | b :: rest, args => b :: sprintf rest args
  | [], _ => []

/-- `xfiredb_sprintf`: the size of the text is an `int`, to which one is added for the
terminator. -/
def xfiredbSprintf (fmt : RStr) (args : List RStr) : Option RStr :=
  if (sprintf fmt args).length + 1 < 2 ^ 31 then some (sprintf fmt args) else none

/-- The functions that build a statement. -/
inductive DiskCall
  | storeString (key data : CStr)
  | storeListEntry (key data : CStr)
  | storeHmNode (key nodekey data : CStr)
  | storeSetKey (key skey : CStr)
  | updateString (key data : CStr)
  | updateList (key data newdata : CStr)
  | updateHm (key nodekey data : CStr)
  | deleteString (key : CStr)
  | deleteList (key data : CStr)
  | deleteHashmapnode (key nodekey : CStr)
  | deleteSetKey (key skey : CStr)

namespace DiskCall

def query : DiskCall → DiskQuery
  | storeString _ _ | storeListEntry _ _ | storeHmNode _ _ _ | storeSetKey _ _ => .store
  | updateString _ _ => .updateString
  | updateList _ _ _ => .updateList
  | updateHm _ _ _ => .updateHm
  | deleteString _ => .deleteString
  | deleteList _ _ => .deleteList
  | deleteHashmapnode _ _ => .deleteHm
  | deleteSetKey _ _ => .deleteSet

/-- The arguments in the order of the call of `xfiredb_sprintf`. -/
def args : DiskCall → List RStr
  | storeString key data => [key.toR, lit "null", lit "string", data.toR]
  | storeListEntry key data => [key.toR, lit "null", lit "list", data.toR]
  | storeHmNode key nodekey data => [key.toR, nodekey.toR, lit "hashmap", data.toR]
  | storeSetKey key skey => [key.toR, skey.toR, lit "set", lit "null"]
  | updateString key data => [data.toR, key.toR]
  | updateList key data newdata => [newdata.toR, key.toR, data.toR]
  | updateHm key nodekey data => [data.toR, key.toR, nodekey.toR]
  | deleteString key => [key.toR]
  | deleteList key data => [key.toR, data.toR]
  | deleteHashmapnode key nodekey => [key.toR, nodekey.toR]
  | deleteSetKey key skey => [key.toR, skey.toR]

/-- The strings the caller gives. -/
def strings : DiskCall → List CStr
  | storeString key data => [key, data]
  | storeListEntry key data => [key, data]
  | storeHmNode key nodekey data => [key, nodekey, data]
  | storeSetKey key skey => [key, skey]
  | updateString key data => [key, data]
  | updateList key data newdata => [key, data, newdata]
  | updateHm key nodekey data => [key, nodekey, data]
  | deleteString key => [key]
  | deleteList key data => [key, data]
  | deleteHashmapnode key nodekey => [key, nodekey]
  | deleteSetKey key skey => [key, skey]

/-- What the call is for. -/
def apply : DiskCall → Table → Table
  | storeString key data => diskStoreString key data
  | storeListEntry key data => diskStoreListEntry key data
  | storeHmNode key nodekey data => diskStoreHmNode key nodekey data
  | storeSetKey key skey => diskStoreSetKey key skey
  | updateString key data => diskUpdateString key data
  | updateList key data newdata => diskUpdateList key data newdata
  | updateHm key nodekey data => diskUpdateHm key nodekey data
  | deleteString key => diskDeleteString key
  | deleteList key data => diskDeleteList key data
  | deleteHashmapnode key nodekey => diskDeleteHashmapnode key nodekey
  | deleteSetKey key skey => diskDeleteSetKey key skey

/-- The call that `bio_worker` makes for an entry. -/
def ofBio (q : BioQ) : DiskCall :=
  match q.operation with
  | .stringAdd => .storeString q.key (printed q.newdata)
  | .stringUpdate => .updateString q.key (printed q.newdata)
  | .stringDel => .deleteString q.key
  | .listAdd => .storeListEntry q.key (printed q.newdata)
  | .listDel => .deleteList q.key (printed q.arg)
  | .listUpdate => .updateList q.key (printed q.arg) (printed q.newdata)
  | .hmAdd => .storeHmNode q.key (printed q.arg) (printed q.newdata)
  | .hmDel => .deleteHashmapnode q.key (printed q.arg)
  | .hmUpdate => .updateHm q.key (printed q.arg) (printed q.newdata)
  | .setAdd => .storeSetKey q.key (printed q.arg)
  | .setDel => .deleteSetKey q.key (printed q.arg)

theorem apply_ofBio (q : BioQ) (rows : Table) : (ofBio q).apply rows = bioApply rows q := by
  unfold ofBio bioApply
  cases q.operation <;> rfl

/-- The text handed to `sqlite3_exec`. -/
def sql (c : DiskCall) : Option RStr := xfiredbSprintf c.query.text c.args

end DiskCall

/-! ## What SQLite makes of a text -/

/-- A token of SQL as far as literals are concerned. -/
abbrev SqlToken : Type := Token UInt8

def lexSql (text : RStr) : Option (List SqlToken) := lex 39 text

/-- The place of an argument. -/
def hole : SqlToken := .literal (lit "%s")

/-- A text without literals. -/
def symbols (s : String) : List SqlToken := (lit s).map .symbol

/-- The tokens of a template, in which `'%s'` is a literal. -/
def DiskQuery.tokens : DiskQuery → List SqlToken
  | .store =>
    symbols "INSERT INTO xfiredb_data (db_key, db_secondary_key, db_type, db_value) VALUES (" ++
      hole :: symbols ", " ++ hole :: symbols ", " ++ hole :: symbols ", " ++ hole :: symbols ");"
  | .updateHm =>
    symbols "UPDATE xfiredb_data SET db_value = " ++ hole :: symbols " WHERE db_key = " ++
      hole :: symbols " AND db_secondary_key = " ++ hole :: symbols ";"
  | .updateList =>
    symbols "UPDATE xfiredb_data SET db_value = " ++
      hole :: symbols " WHERE ROWID IN (SELECT ROWID FROM xfiredb_data WHERE db_key = " ++
      hole :: symbols " AND db_value = " ++ hole :: symbols " AND db_type = " ++
      .literal (lit "list") :: symbols " LIMIT 1);"
  | .updateString =>
    symbols "UPDATE xfiredb_data SET db_value = " ++ hole :: symbols " WHERE db_key = " ++
      hole :: symbols " AND db_type = " ++ .literal (lit "string") :: symbols ";"
  | .deleteString =>
    symbols "DELETE FROM xfiredb_data WHERE db_type = " ++
      .literal (lit "string") :: symbols " AND db_key = " ++ hole :: symbols ";"
  | .deleteList =>
    symbols
      "DELETE FROM xfiredb_data WHERE ROWID in (SELECT ROWID FROM xfiredb_data WHERE db_key = " ++
      hole :: symbols " AND db_value = " ++ hole :: symbols " AND db_type = " ++
      .literal (lit "list") :: symbols " LIMIT 1);"
  | .deleteHm =>
    symbols "DELETE FROM xfiredb_data WHERE db_type = " ++
      .literal (lit "hashmap") :: symbols " AND db_key = " ++
      hole :: symbols " AND db_secondary_key = " ++ hole :: symbols ";"
  | .deleteSet =>
    symbols "DELETE FROM xfiredb_data WHERE db_type = " ++
      .literal (lit "set") :: symbols " AND db_key = " ++
      hole :: symbols " AND db_secondary_key = " ++ hole :: symbols ";"

/-- The tokens of the statement that a template stands for. -/
def fill : List SqlToken → List RStr → List SqlToken
  | [], _ => []
  | t :: rest, [] => t :: fill rest []
  | t :: rest, arg :: args =>
    if t = hole then .literal arg :: fill rest args else t :: fill rest (arg :: args)

/-- Read the arguments off the tokens of a statement. -/
def unfill : List SqlToken → List SqlToken → Option (List RStr)
  | [], [] => some []
  | t :: rest, token :: tokens =>
    match token with
    | .literal s =>
      if t = hole then (unfill rest tokens).map (s :: ·)
      else if t = token then unfill rest tokens else none
    | .symbol _ => if t = token then unfill rest tokens else none
  | _, _ => none

/-- One statement: its only semicolon outside the literals ends it. -/
def SingleStatement (tokens : List SqlToken) : Prop :=
  tokens.count (.symbol 59) = 1 ∧ tokens.getLast? = some (.symbol 59)

/-- The `db_type` column. -/
def RowType.ofText (s : RStr) : Option RowType :=
  if s = lit "string" then some .string
  else if s = lit "list" then some .list
  else if s = lit "hashmap" then some .hashmap
  else if s = lit "set" then some .set
  else none

/-- The effect of a statement with the form of a template. -/
def DiskQuery.run : DiskQuery → List CStr → Table → Option Table
  | .store, [key, secondary, type, value], rows =>
    (RowType.ofText type.toR).map fun type => rows ++ [⟨key, secondary, type, value⟩]
  | .updateHm, [data, key, nodekey], rows => some (diskUpdateHm key nodekey data rows)
  | .updateList, [newdata, key, data], rows => some (diskUpdateList key data newdata rows)
  | .updateString, [data, key], rows => some (diskUpdateString key data rows)
  | .deleteString, [key], rows => some (diskDeleteString key rows)
  | .deleteList, [key, data], rows => some (diskDeleteList key data rows)
  | .deleteHm, [key, nodekey], rows => some (diskDeleteHashmapnode key nodekey rows)
  | .deleteSet, [key, skey], rows => some (diskDeleteSetKey key skey rows)
  | _, _, _ => none

def DiskQuery.all : List DiskQuery :=
  [.store, .updateHm, .updateList, .updateString, .deleteString, .deleteList, .deleteHm, .deleteSet]

/-- `SQLITE_MAX_SQL_LENGTH`: a longer text is refused. -/
def sqliteMaxSqlLength : Nat := 1000000000

/-- Execute a text that has the form of one of the templates.  `none` for a text that is
too long, and for a text of any other form: whether SQLite finds an error in it or
executes other statements is not said here. -/
def execSql (text : RStr) (rows : Table) : Option Table :=
  if text.length ≤ sqliteMaxSqlLength then
    (lexSql text).bind fun tokens =>
      DiskQuery.all.findSome? fun q =>
        (unfill q.tokens tokens).bind fun args =>
          (args.mapM fun arg => (stringValueCStr arg).toOption).bind fun args => q.run args rows
  else none

/-! ## Filling in arguments -/

/-- A token without a `%`, or the place of an argument. -/
def Formattable : SqlToken → Prop
  | .symbol a => a ≠ 37
  | .literal s => s = lit "%s" ∨ 37 ∉ s

theorem sprintf_cons {b : UInt8} (other : b ≠ 37) (rest : RStr) (args : List RStr) :
    sprintf (b :: rest) args = b :: sprintf rest args := by
  rw [sprintf]
  intro rest' arg args' _ isPercent
  exact absurd isPercent other

theorem sprintf_append {s : RStr} (clean : 37 ∉ s) (rest : RStr) (args : List RStr) :
    sprintf (s ++ rest) args = s ++ sprintf rest args := by
  induction s with
  | nil => rfl
  | cons b s ih =>
      have other : b ≠ 37 := by
        intro same
        obtain rfl := same
        exact clean List.mem_cons_self
      rw [List.cons_append, sprintf_cons other, ih fun later =>
        clean (List.mem_cons_of_mem b later)]
      rfl

/-- `sprintf` pastes the arguments into the literals. -/
theorem sprintf_paste {tokens : List SqlToken} (formattable : ∀ t ∈ tokens, Formattable t)
    (args : List RStr) : sprintf (tokens.flatMap (Token.paste 39)) args =
      (fill tokens args).flatMap (Token.paste 39) := by
  induction tokens generalizing args with
  | nil => cases args <;> rfl
  | cons t rest ih =>
      have here := formattable t List.mem_cons_self
      have later := ih fun t member => formattable t (List.mem_cons_of_mem _ member)
      rw [List.flatMap_cons]
      by_cases isHole : t = hole
      · subst isHole
        have text : ∀ r, hole.paste 39 ++ r = 39 :: 37 :: 115 :: 39 :: r := fun _ => rfl
        have quote : ∀ r args, sprintf (39 :: r) args = 39 :: sprintf r args :=
          sprintf_cons (by decide)
        rw [text, quote]
        cases args with
        | nil =>
            have percent : ∀ r, sprintf (37 :: 115 :: r) [] = 37 :: 115 :: sprintf r [] := by
              intro r
              rw [sprintf, sprintf_cons (by decide)]
              simp
            rw [percent, quote, later, fill, List.flatMap_cons, text]
        | cons arg args =>
            rw [sprintf, quote, later, fill, if_pos rfl, List.flatMap_cons, Token.paste]
            simp
      · have clean : 37 ∉ t.paste 39 := by
          cases t with
          | symbol a =>
              rw [Token.paste, List.mem_singleton]
              exact Ne.symm here
          | literal s =>
              have noPercent : 37 ∉ s := here.resolve_left fun same => isHole (by rw [same, hole])
              simp [Token.paste, noPercent]
        have filled : fill (t :: rest) args = t :: fill rest args := by
          cases args with
          | nil => rfl
          | cons arg args => rw [fill, if_neg isHole]
        rw [sprintf_append clean, later, filled, List.flatMap_cons]

/-- A statement has literals where its template has them. -/
theorem literal_head_fill (tokens : List SqlToken) (args : List RStr) :
    (∀ s, tokens.head? ≠ some (.literal s)) →
      ∀ s, (fill tokens args).head? ≠ some (.literal s) := by
  intro noLiteral s
  cases tokens with
  | nil => cases args <;> simp [fill]
  | cons t rest =>
      have notHole : t ≠ hole := by
        intro same
        obtain rfl := same
        exact noLiteral _ rfl
      cases args with
      | nil => exact noLiteral s
      | cons arg args =>
          rw [fill, if_neg notHole]
          exact noLiteral s

theorem separate_fill {tokens : List SqlToken} (separate : Separate 39 tokens) (args : List RStr) :
    Separate 39 (fill tokens args) := by
  induction tokens generalizing args with
  | nil => cases args <;> trivial
  | cons t rest ih =>
      cases t with
      | symbol a =>
          cases args with
          | nil => exact ⟨separate.1, ih separate.2 []⟩
          | cons arg args =>
              rw [fill, if_neg (by simp [hole])]
              exact ⟨separate.1, ih separate.2 _⟩
      | literal s =>
          cases args with
          | nil => exact ⟨literal_head_fill rest [] separate.1, ih separate.2 []⟩
          | cons arg args =>
              rw [fill]
              split
              · exact ⟨literal_head_fill rest args separate.1, ih separate.2 args⟩
              · exact ⟨literal_head_fill rest _ separate.1, ih separate.2 _⟩

theorem fill_cons_ne {t : SqlToken} (notHole : t ≠ hole) (rest : List SqlToken)
    (args : List RStr) : fill (t :: rest) args = t :: fill rest args := by
  cases args with
  | nil => rfl
  | cons arg args => rw [fill, if_neg notHole]

/-- With an argument for each place, the literals are the arguments and those of
the template. -/
theorem quoteFree_fill {tokens : List SqlToken} (free : QuoteFree 39 tokens) {args : List RStr}
    (count : tokens.count hole = args.length) :
    QuoteFree 39 (fill tokens args) ↔ ∀ arg ∈ args, 39 ∉ arg := by
  have cons_iff : ∀ (t : SqlToken) rest, QuoteFree 39 (t :: rest) ↔
      (∀ s, t = .literal s → 39 ∉ s) ∧ QuoteFree 39 rest := by
    intro t rest
    simp only [QuoteFree, List.mem_cons, or_imp, forall_and]
    exact and_congr_left fun _ => forall_congr' fun s => by rw [eq_comm]
  induction tokens generalizing args with
  | nil =>
      obtain rfl : args = [] := List.length_eq_zero_iff.mp count.symm
      exact iff_of_true (fun s member => absurd member List.not_mem_nil) (by simp)
  | cons t rest ih =>
      obtain ⟨here, later⟩ := (cons_iff t rest).mp free
      by_cases isHole : t = hole
      · subst isHole
        rw [List.count_cons_self] at count
        cases args with
        | nil => cases count
        | cons arg args =>
            have fewer : rest.count hole = args.length := by simpa using count
            have inner := ih later fewer
            have first : (∀ s, Token.literal arg = .literal s → 39 ∉ s) ↔ 39 ∉ arg := by
              simp only [Token.literal.injEq, forall_eq']
            rw [fill, if_pos rfl, cons_iff, List.forall_mem_cons, first]
            exact and_congr_right fun _ => inner
      · rw [List.count_cons_of_ne isHole] at count
        have inner := ih later count
        rw [fill_cons_ne isHole, cons_iff]
        exact (and_iff_right here).trans inner

/-- The arguments can be read off the statement. -/
theorem unfill_fill {tokens : List SqlToken} {args : List RStr}
    (count : tokens.count hole = args.length) : unfill tokens (fill tokens args) = some args := by
  induction tokens generalizing args with
  | nil =>
      obtain rfl : args = [] := List.length_eq_zero_iff.mp count.symm
      rfl
  | cons t rest ih =>
      by_cases isHole : t = hole
      · subst isHole
        rw [List.count_cons_self] at count
        cases args with
        | nil => cases count
        | cons arg args =>
            rw [fill, if_pos rfl, unfill]
            simp only [if_true]
            rw [ih (by simpa using count)]
            rfl
      · rw [List.count_cons_of_ne isHole] at count
        rw [fill_cons_ne isHole, ← ih count]
        cases t with
        | symbol a => rw [unfill, if_pos rfl]
        | literal s => rw [unfill, if_neg isHole, if_pos rfl]

/-- The arguments are read off one token after another. -/
theorem unfill_cons {t token : SqlToken} {rest tokens : List SqlToken} {args : List RStr}
    (read : unfill (t :: rest) (token :: tokens) = some args) :
    (t ≠ hole → t = token) ∧ ∃ args', unfill rest tokens = some args' := by
  cases token with
  | symbol a =>
      rw [unfill] at read
      split at read
      · rename_i same
        exact ⟨fun _ => same, args, read⟩
      · cases read
  | literal s =>
      rw [unfill] at read
      split at read
      · rename_i isHole
        obtain ⟨args', inner, _⟩ := Option.map_eq_some_iff.mp read
        exact ⟨fun notHole => absurd isHole notHole, args', inner⟩
      · split at read
        · rename_i same
          exact ⟨fun _ => same, args, read⟩
        · cases read

theorem length_of_unfill {tokens statement : List SqlToken} {args : List RStr}
    (read : unfill tokens statement = some args) : tokens.length = statement.length := by
  induction tokens generalizing statement args with
  | nil =>
      cases statement with
      | nil => rfl
      | cons => cases read
  | cons t rest ih =>
      cases statement with
      | nil => cases read
      | cons token tokens =>
          obtain ⟨_, args', inner⟩ := unfill_cons read
          rw [List.length_cons, List.length_cons, ih inner]

theorem length_fill (tokens : List SqlToken) (args : List RStr) :
    (fill tokens args).length = tokens.length := by
  induction tokens generalizing args with
  | nil => cases args <;> rfl
  | cons t rest ih =>
      by_cases isHole : t = hole
      · cases args with
        | nil => rw [fill, List.length_cons, List.length_cons, ih]
        | cons arg args => rw [fill, if_pos isHole, List.length_cons, List.length_cons, ih]
      · rw [fill_cons_ne isHole, List.length_cons, List.length_cons, ih]

/-- Templates that share a beginning and then differ in a literal. -/
theorem unfill_clash {front rest rest' : List SqlToken} {t t' : SqlToken} {args : List RStr}
    (plain : ∀ t ∈ front, t ≠ hole) (notHole : t ≠ hole) (notHole' : t' ≠ hole) (other : t' ≠ t) :
    unfill (front ++ t' :: rest') (fill (front ++ t :: rest) args) = none := by
  rw [Option.eq_none_iff_forall_ne_some]
  intro found read
  induction front generalizing found with
  | nil =>
      rw [List.nil_append, List.nil_append, fill_cons_ne notHole] at read
      exact other ((unfill_cons read).1 notHole')
  | cons u front ih =>
      have here := plain u List.mem_cons_self
      rw [List.cons_append, List.cons_append, fill_cons_ne here] at read
      obtain ⟨_, found', inner⟩ := unfill_cons read
      exact ih (fun v member => plain v (List.mem_cons_of_mem u member)) found' inner

/-- Filling in keeps the symbols. -/
theorem count_fill (b : UInt8) (tokens : List SqlToken) (args : List RStr) :
    (fill tokens args).count (.symbol b) = tokens.count (.symbol b) := by
  induction tokens generalizing args with
  | nil => cases args <;> rfl
  | cons t rest ih =>
      by_cases isHole : t = hole
      · subst isHole
        cases args with
        | nil => rw [fill, List.count_cons, List.count_cons, ih]
        | cons arg args =>
            rw [fill, if_pos rfl, List.count_cons_of_ne (by simp), ih,
              List.count_cons_of_ne (by simp [hole])]
      · rw [fill_cons_ne isHole, List.count_cons, List.count_cons, ih]

theorem getLast_fill {b : UInt8} {tokens : List SqlToken} (args : List RStr)
    (last : tokens.getLast? = some (.symbol b)) :
    (fill tokens args).getLast? = some (.symbol b) := by
  induction tokens generalizing args with
  | nil => cases last
  | cons t rest ih =>
      cases rest with
      | nil =>
          obtain rfl : t = .symbol b := by simpa using last
          rw [fill_cons_ne (by simp [hole])]
          cases args <;> rfl
      | cons u rest =>
          have inner : (u :: rest).getLast? = some (.symbol b) := by
            rw [← last, List.getLast?_cons_cons]
          have nonempty : ∀ args, fill (u :: rest) args ≠ [] := by
            intro args empty
            have lengths := congrArg List.length empty
            rw [length_fill] at lengths
            cases lengths
          have step : ∀ (v : SqlToken) args,
              (v :: fill (u :: rest) args).getLast? = some (.symbol b) := by
            intro v args
            rw [List.getLast?_cons_of_ne_nil (nonempty args)]
            exact ih args inner
          by_cases isHole : t = hole
          · cases args with
            | nil => exact step t []
            | cons arg args =>
                rw [fill, if_pos isHole]
                exact step _ args
          · rw [fill_cons_ne isHole]
            exact step t args

theorem length_paste_fill {tokens : List SqlToken} {args : List RStr}
    (count : tokens.count hole = args.length) :
    ((fill tokens args).flatMap (Token.paste 39)).length + 2 * args.length =
      (tokens.flatMap (Token.paste 39)).length + (args.map List.length).sum := by
  induction tokens generalizing args with
  | nil =>
      obtain rfl : args = [] := List.length_eq_zero_iff.mp count.symm
      rfl
  | cons t rest ih =>
      by_cases isHole : t = hole
      · subst isHole
        rw [List.count_cons_self] at count
        cases args with
        | nil => cases count
        | cons arg args =>
            have inner := @ih args (by simpa using count)
            have width : (hole.paste 39).length = 4 := by decide
            have filled : ((Token.literal arg).paste 39).length = arg.length + 2 := by
              simp [Token.paste]
            rw [fill, if_pos rfl, List.flatMap_cons, List.flatMap_cons, List.length_append,
              List.length_append, width, filled, List.map_cons, List.sum_cons, List.length_cons]
            omega
      · rw [List.count_cons_of_ne isHole] at count
        have inner := ih count
        rw [fill_cons_ne isHole, List.flatMap_cons, List.flatMap_cons, List.length_append,
          List.length_append]
        omega

/-! ## The templates -/

theorem paste_symbols (s : String) : (symbols s).flatMap (Token.paste 39) = lit s := by
  unfold symbols
  induction lit s with
  | nil => rfl
  | cons b s ih =>
      rw [List.map_cons, List.flatMap_cons, ih]
      rfl

theorem formattable_symbols (s : String) : (∀ t ∈ symbols s, Formattable t) ↔ 37 ∉ lit s := by
  unfold symbols
  rw [List.forall_mem_map]
  constructor
  · intro all percent
    exact all 37 percent rfl
  · intro clean b member same
    obtain rfl := same
    exact clean member

theorem formattable_hole : Formattable hole := Or.inl rfl

theorem count_symbol (s : String) (b : UInt8) :
    (symbols s).count (.symbol b) = (lit s).count b := by
  unfold symbols
  exact List.count_map_of_injective (lit s) Token.symbol (fun _ _ => Token.symbol.inj) b

theorem getLast_symbols (front : List SqlToken) (t : SqlToken) {s : String} {b : UInt8}
    (last : (lit s).getLast? = some b) :
    (front ++ t :: symbols s).getLast? = some (.symbol b) := by
  obtain ⟨init, isLast⟩ := List.getLast?_eq_some_iff.mp last
  rw [symbols, isLast, List.map_append, List.map_singleton, ← List.cons_append,
    ← List.append_assoc, List.getLast?_concat]

namespace DiskQuery

variable (q : DiskQuery)

theorem text_eq : q.text = q.tokens.flatMap (Token.paste 39) := by
  have arg : Token.paste 39 hole = lit "'%s'" := by decide
  have list : Token.paste 39 (.literal (lit "list")) = lit "'list'" := by decide
  have string : Token.paste 39 (.literal (lit "string")) = lit "'string'" := by decide
  have hashmap : Token.paste 39 (.literal (lit "hashmap")) = lit "'hashmap'" := by decide
  have set : Token.paste 39 (.literal (lit "set")) = lit "'set'" := by decide
  cases q <;> simp only [text, tokens, List.flatMap_append, List.flatMap_cons, paste_symbols, arg,
    list, string, hashmap, set, List.append_assoc, List.cons_append]

theorem separate_tokens : Separate 39 q.tokens := by
  cases q <;> simp [tokens, symbols, hole, lit, Separate]

theorem quoteFree_tokens : QuoteFree 39 q.tokens := by
  unfold QuoteFree
  cases q <;> simp [tokens, symbols, hole, lit]

theorem formattable_tokens : ∀ t ∈ q.tokens, Formattable t := by
  have list : Formattable (.literal (lit "list")) := Or.inr (by decide)
  have string : Formattable (.literal (lit "string")) := Or.inr (by decide)
  have hashmap : Formattable (.literal (lit "hashmap")) := Or.inr (by decide)
  have set : Formattable (.literal (lit "set")) := Or.inr (by decide)
  cases q <;> simp only [tokens, List.forall_mem_append, List.forall_mem_cons,
    formattable_symbols, formattable_hole, list, string, hashmap, set, true_and] <;> simp [lit]

/-- The length of a template in tokens. -/
def size : DiskQuery → Nat
  | .store => 91
  | .updateHm => 79
  | .updateList => 143
  | .updateString => 70
  | .deleteString => 58
  | .deleteList => 131
  | .deleteHm => 83
  | .deleteSet => 83

theorem length_tokens : q.tokens.length = q.size := by
  cases q <;> simp [tokens, symbols, lit, size]

theorem count_tokens : q.tokens.count (.symbol 59) = 1 := by
  have literal : ∀ s, (Token.literal s == Token.symbol (59 : UInt8)) = false := by simp
  have inner : ∀ s, 59 ∉ lit s → (symbols s).count (.symbol 59) = 0 := by
    intro s absent
    rw [count_symbol, List.count_eq_zero]
    exact absent
  have semicolon : (symbols ";").count (.symbol 59) = 1 := by decide
  have bracket : (symbols ");").count (.symbol 59) = 1 := by decide
  have limit : (symbols " LIMIT 1);").count (.symbol 59) = 1 := by decide
  cases q <;> simp (disch := simp [lit]) only [tokens, List.count_append, List.count_cons, hole,
    literal, semicolon, bracket, limit, inner, Bool.false_eq_true, if_false]

theorem getLast_tokens : q.tokens.getLast? = some (.symbol 59) := by
  cases q with
  | store => exact getLast_symbols _ _ (by decide)
  | updateHm => exact getLast_symbols _ _ (by decide)
  | updateList => exact getLast_symbols _ _ (by decide)
  | updateString => exact getLast_symbols _ _ (by decide)
  | deleteString => exact getLast_symbols _ _ (by decide)
  | deleteList => exact getLast_symbols _ _ (by decide)
  | deleteHm => exact getLast_symbols _ _ (by decide)
  | deleteSet => exact getLast_symbols _ _ (by decide)

/-- The text of a statement is one of its template, with the arguments pasted in. -/
theorem sprintf_text (args : List RStr) :
    sprintf q.text args = (fill q.tokens args).flatMap (Token.paste 39) := by
  rw [text_eq]
  exact sprintf_paste q.formattable_tokens args

/-- The statement is read as intended exactly if no argument has a quote. -/
theorem lexSql_sprintf {args : List RStr} (count : q.tokens.count hole = args.length) :
    lexSql (sprintf q.text args) = some (fill q.tokens args) ↔ ∀ arg ∈ args, 39 ∉ arg := by
  rw [sprintf_text, lexSql, lex_paste_iff (separate_fill q.separate_tokens args)]
  exact quoteFree_fill q.quoteFree_tokens count

/-- A statement has the form of one template only. -/
theorem unfill_other {q' : DiskQuery} (other : q' ≠ q) (args : List RStr) :
    unfill q'.tokens (fill q.tokens args) = none := by
  have plain : ∀ t ∈ symbols "DELETE FROM xfiredb_data WHERE db_type = ", t ≠ hole := by
    intro t member same
    obtain rfl := same
    obtain ⟨b, _, same⟩ := List.mem_map.mp member
    cases same
  have set : Token.literal (lit "set") ≠ hole := by decide
  have hashmap : Token.literal (lit "hashmap") ≠ hole := by decide
  have apart : Token.literal (lit "set") ≠ .literal (lit "hashmap") := by decide
  by_cases sizes : q'.size = q.size
  · -- only two templates are equally long, and they name different types
    cases q <;> cases q' <;> first
      | exact absurd rfl other
      | exact absurd sizes (by decide)
      | simp only [tokens, List.append_assoc, List.cons_append]
    · exact unfill_clash plain hashmap set apart
    · exact unfill_clash plain set hashmap apart.symm
  · rw [Option.eq_none_iff_forall_ne_some]
    intro found read
    have lengths := length_of_unfill read
    rw [length_fill, length_tokens, length_tokens] at lengths
    exact sizes lengths

end DiskQuery

/-! ## The calls -/

theorem count_symbols (s : String) : (symbols s).count hole = 0 := by
  rw [List.count_eq_zero]
  intro member
  obtain ⟨b, _, same⟩ := List.mem_map.mp member
  cases same

namespace DiskCall

variable (c : DiskCall)

theorem count_args : c.query.tokens.count hole = c.args.length := by
  have list : (Token.literal (lit "list") == hole) = false := by decide
  have string : (Token.literal (lit "string") == hole) = false := by decide
  have hashmap : (Token.literal (lit "hashmap") == hole) = false := by decide
  have set : (Token.literal (lit "set") == hole) = false := by decide
  cases c <;> simp [query, args, DiskQuery.tokens, count_symbols, List.count_cons, list, string,
    hashmap, set]

theorem forall_args : (∀ arg ∈ c.args, 39 ∉ arg) ↔ ∀ s ∈ c.strings, 39 ∉ s.bytes := by
  have null : 39 ∉ lit "null" := by decide
  have string : 39 ∉ lit "string" := by decide
  have list : 39 ∉ lit "list" := by decide
  have hashmap : 39 ∉ lit "hashmap" := by decide
  have set : 39 ∉ lit "set" := by decide
  cases c <;> simp only [args, strings, List.forall_mem_cons, null, string, list, hashmap, set,
    CStr.toR, not_false_eq_true, true_and] <;> tauto

/-- The template with the call's arguments does what the call is for. -/
theorem run_args (rows : Table) :
    ((c.args.mapM fun arg => (stringValueCStr arg).toOption).bind fun args =>
      c.query.run args rows) = some (c.apply rows) := by
  have given : ∀ s : CStr, (stringValueCStr s.toR).toOption = some s := by
    intro s
    rw [stringValueCStr_toR]
    rfl
  have null : (stringValueCStr (lit "null")).toOption = some nullText := by decide
  have typed : ∀ text type, 0 ∉ lit text → RowType.ofText (lit text) = some type →
      ∃ s, (stringValueCStr (lit text)).toOption = some s ∧ RowType.ofText s.toR = some type := by
    intro text type proper known
    refine ⟨⟨lit text, proper⟩, ?_, known⟩
    rw [stringValueCStr, dif_neg proper]
    rfl
  obtain ⟨string, isString, stringType⟩ := typed "string" .string (by decide) (by decide)
  obtain ⟨list, isList, listType⟩ := typed "list" .list (by decide) (by decide)
  obtain ⟨hashmap, isHashmap, hashmapType⟩ := typed "hashmap" .hashmap (by decide) (by decide)
  obtain ⟨set, isSet, setType⟩ := typed "set" .set (by decide) (by decide)
  cases c <;> simp [args, query, apply, given, null, isString, isList, isHashmap, isSet,
    DiskQuery.run, stringType, listType, hashmapType, setType, diskStoreString,
    diskStoreListEntry, diskStoreHmNode, diskStoreSetKey]

/-- A text that is read as the intended statement has the intended effect. -/
theorem execSql_eq {text : RStr} (taken : text.length ≤ sqliteMaxSqlLength)
    (read : lexSql text = some (fill c.query.tokens c.args)) (rows : Table) :
    execSql text rows = some (c.apply rows) := by
  rw [execSql, if_pos taken, read, Option.bind_some]
  have mine : (unfill c.query.tokens (fill c.query.tokens c.args)).bind (fun args =>
      (args.mapM fun arg => (stringValueCStr arg).toOption).bind fun args =>
        c.query.run args rows) = some (c.apply rows) := by
    rw [unfill_fill c.count_args]
    exact c.run_args rows
  have others : ∀ q, q ≠ c.query → unfill q.tokens (fill c.query.tokens c.args) = none :=
    fun q other => c.query.unfill_other other c.args
  revert mine others
  cases c.query <;> intro mine others <;>
    simp [DiskQuery.all, others, mine]

/-- The statement is the intended one: the text is built and SQLite takes it, it reads the
text as one statement with the form of the template whose literals are the arguments, and
its effect on every table is that of the call. -/
def Faithful : Prop :=
  ∃ text, c.sql = some text ∧ text.length ≤ sqliteMaxSqlLength ∧
    lexSql text = some (fill c.query.tokens c.args) ∧
    SingleStatement (fill c.query.tokens c.args) ∧ ∀ rows, execSql text rows = some (c.apply rows)

/-- The text, which is as long as the template with its places and the arguments, is one
that SQLite takes. -/
def Fits : Prop :=
  c.query.text.length + (c.args.map List.length).sum ≤ sqliteMaxSqlLength + 2 * c.args.length

instance : Decidable c.Fits := inferInstanceAs (Decidable (_ ≤ _))

theorem length_sql : (sprintf c.query.text c.args).length + 2 * c.args.length =
    c.query.text.length + (c.args.map List.length).sum := by
  rw [c.query.sprintf_text, length_paste_fill c.count_args, ← c.query.text_eq]

theorem fits_iff : c.Fits ↔ (sprintf c.query.text c.args).length ≤ sqliteMaxSqlLength := by
  have lengths := c.length_sql
  unfold Fits
  omega

/-- A text that SQLite takes can be built. -/
theorem sql_of_fits (fits : c.Fits) : c.sql = some (sprintf c.query.text c.args) := by
  have taken := c.fits_iff.mp fits
  have small : sqliteMaxSqlLength + 1 < 2 ^ 31 := by decide
  rw [sql, xfiredbSprintf, if_pos (by omega)]

theorem eq_of_sql {text : RStr} (built : c.sql = some text) :
    sprintf c.query.text c.args = text := by
  unfold sql xfiredbSprintf at built
  split at built
  · exact Option.some.inj built
  · cases built

theorem faithful_of_fits (free : ∀ s ∈ c.strings, 39 ∉ s.bytes) (fits : c.Fits) : c.Faithful := by
  have read := (c.query.lexSql_sprintf c.count_args).mpr (c.forall_args.mpr free)
  have taken := c.fits_iff.mp fits
  have single : SingleStatement (fill c.query.tokens c.args) :=
    ⟨(count_fill 59 _ _).trans c.query.count_tokens, getLast_fill _ c.query.getLast_tokens⟩
  exact ⟨_, c.sql_of_fits fits, taken, read, single, c.execSql_eq taken read⟩

/-- A text with a quote in one of its strings is read otherwise. -/
theorem Faithful.fits (faithful : c.Faithful) : (∀ s ∈ c.strings, 39 ∉ s.bytes) ∧ c.Fits := by
  obtain ⟨text, built, taken, read, _, _⟩ := faithful
  obtain rfl := c.eq_of_sql built
  exact ⟨c.forall_args.mp ((c.query.lexSql_sprintf c.count_args).mp read), c.fits_iff.mpr taken⟩

/-- For every function of `disk.c` and all its strings: the statement is the intended
one exactly if no string has a single quote in it and the text fits. -/
theorem faithful_iff : c.Faithful ↔ (∀ s ∈ c.strings, 39 ∉ s.bytes) ∧ c.Fits :=
  ⟨Faithful.fits c, fun both => c.faithful_of_fits both.1 both.2⟩

/-- `it's` under the key `k`. -/
def storeApostrophe : DiskCall :=
  .storeString ⟨lit "k", by decide⟩ ⟨lit "it's", by decide⟩

theorem storeApostrophe_not_faithful : ¬ storeApostrophe.Faithful := by
  intro faithful
  exact (Faithful.fits _ faithful).1 ⟨lit "it's", by decide⟩ (by decide) (by decide)

end DiskCall

/-! ## The worker -/

/-- `bio_worker` for an entry: the text of its call is built and executed. -/
def bioExec (rows : Table) (q : BioQ) : Option Table :=
  (DiskCall.ofBio q).sql.bind fun text => execSql text rows

/-- The statement of the entry is the intended one. -/
def BioQ.Storable (q : BioQ) : Prop :=
  (∀ s ∈ (DiskCall.ofBio q).strings, 39 ∉ s.bytes) ∧ (DiskCall.ofBio q).Fits

instance (q : BioQ) : Decidable q.Storable := inferInstanceAs (Decidable (_ ∧ _))

/-- A storable entry has the effect it was queued for. -/
theorem BioQ.Storable.bioExec {q : BioQ} (storable : q.Storable) (rows : Table) :
    bioExec rows q = some (bioApply rows q) := by
  obtain ⟨text, built, _, _, _, runs⟩ := (DiskCall.ofBio q).faithful_of_fits storable.1 storable.2
  rw [XFireDB.bioExec, built, Option.bind_some, runs, DiskCall.apply_ofBio]

/-- So have storable entries one after the other. -/
theorem foldlM_bioExec {queue : List BioQ} (storable : ∀ q ∈ queue, q.Storable) (rows : Table) :
    queue.foldlM bioExec rows = some (bioWorker rows queue) := by
  induction queue generalizing rows with
  | nil => rfl
  | cons q queue ih =>
      obtain ⟨first, later⟩ := List.forall_mem_cons.mp storable
      rw [List.foldlM_cons, first.bioExec]
      exact ih later (bioApply rows q)

end XFireDB
