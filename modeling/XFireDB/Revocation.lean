import XFireDB.Users
import XFireDB.Lib.Runs

/-!
# Revoked passwords

A command that changes a record has every node drop its copy before it replies.  A
login that has read the record before the change may still store what it has read
after its node was told to drop it.
-/

namespace XFireDB

open Lib

/-! ## The record as the asking node reads it -/

/-- A reply of one line is what was put on the wire, less its line ends. -/
theorem received_single {s line : RStr} (got : (Reply.lines [s]).received = .text line) :
    ∃ t, s = line ++ t ∧ ∀ c ∈ t, isSpace c = true := by
  obtain ⟨body, sent, rest, whole, feeds⟩ : ∃ body, puts s = body ++ 10 :: [] ∧
      ∃ rest, s = body ++ rest ∧ ∀ c ∈ rest, isSpace c = true := by
    unfold puts
    by_cases ended : s.getLast? = some 10
    · obtain ⟨body, rfl⟩ := List.getLast?_eq_some_iff.mp ended
      exact ⟨body, if_pos ended, [10], rfl, by simp [isSpace]⟩
    · exact ⟨s, if_neg ended, [], (List.append_nil s).symm, by simp⟩
  have lines : getsLines (Reply.lines [s]).bytes = (body.splitOnP (· = 10)).map chomp := by
    rw [Reply.bytes, List.map_singleton, List.flatten_singleton, sent, getsLines,
      List.splitOnP_append_cons body [] (by decide), List.splitOnP_nil, List.dropLast_concat]
  have oneLine : ∀ c ∈ body, (fun c : UInt8 => decide (c = 10)) c = false := by
    intro c member
    by_contra isFeed
    obtain ⟨front, back, rfl⟩ := List.append_of_mem member
    rw [List.splitOnP_append_cons front back (by simpa using isFeed)] at lines
    unfold Reply.received at got
    rw [lines, List.map_append] at got
    obtain ⟨a, as, first⟩ := List.exists_cons_of_ne_nil (List.splitOnP_ne_nil (· = 10) front)
    obtain ⟨z, zs, second⟩ := List.exists_cons_of_ne_nil (List.splitOnP_ne_nil (· = 10) back)
    rw [first, second] at got
    cases as <;> cases got
  have line_eq : chomp body = line := by
    rw [List.splitOnP_eq_singleton oneLine] at lines
    unfold Reply.received at got
    rw [lines] at got
    exact Reply.text.inj got
  obtain ⟨t, split, ends⟩ := chomp_append body
  refine ⟨t ++ rest, ?_, ?_⟩
  · rw [whole, ← List.append_assoc, ← line_eq, ← split]
  · intro c member
    rcases List.mem_append.mp member with inEnd | inRest
    · rcases ends c inEnd with rfl | rfl <;> rfl
    · exact feeds c inRest

/-! ## Names on the wire -/

/-- A user whose name comes back from the texts that are sent about it. -/
def NamesItself (user : RStr) : Prop := refKeys user = [user] ∧ poisoned user = some user

theorem PlainWord.isWord {w : RStr} (plain : PlainWord w) : IsWord w := by
  refine ⟨plain.1, ?_⟩
  intro c member
  have notStripped := isStripped_of_isPlain (plain.2 c member)
  simp only [isStripped, Bool.or_eq_false_iff] at notStripped
  exact notStripped.2

/-- Three plain words come back from the wire. -/
theorem parseXql_threeWords {v w user : RStr} (first : PlainWord v) (second : PlainWord w)
    (plain : PlainWord user) :
    parseXql (wireLine (v ++ 32 :: w ++ 32 :: user)) = some ⟨upcase v, [w, user]⟩ := by
  have words : ∀ x ∈ [v, w, user], PlainWord x := by
    simp [first, second, plain]
  have text : v ++ 32 :: w ++ 32 :: user = join (lit " ") [v, w, user] := by
    simp [join, List.intercalate_cons_cons, lit]
  have tokens : tokenize (join (lit " ") [v, w, user]) = [v, w, user] := by
    have fields : ∀ f ∈ [(v, v), (w, w), (user, user)], IsToken f.1 f.2 := by
      simp [first.isToken, second.isToken, plain.isToken]
    exact tokenize_join fields
  rw [text, wireLine_join fun x member => (words x member).isWord, parseXql, tokens]

theorem namesItself_of_plainWord {user : RStr} (plain : PlainWord user) : NamesItself user := by
  have isPlain_ : ∀ w ∈ [lit "MREF", lit "xfiredb-users", lit "CLUSTER", lit "USERPOISON"],
      PlainWord w := by
    have checked : [lit "MREF", lit "xfiredb-users", lit "CLUSTER", lit "USERPOISON"].all
        (fun w => !w.isEmpty && w.all isPlain) = true := by
      decide +kernel
    simpa [PlainWord] using checked
  constructor
  · have text : lit "MREF xfiredb-users " ++ user =
        lit "MREF" ++ 32 :: lit "xfiredb-users" ++ 32 :: user := by
      simp [lit]
    rw [refKeys, text, parseXql_threeWords (isPlain_ _ (by simp)) (isPlain_ _ (by simp)) plain]
    rfl
  · have text : lit "CLUSTER USERPOISON " ++ user =
        lit "CLUSTER" ++ 32 :: lit "USERPOISON" ++ 32 :: user := by
      simp [lit]
    rw [poisoned, Cluster.subject, text,
      parseXql_threeWords (isPlain_ _ (by simp)) (isPlain_ _ (by simp)) plain]
    rfl

namespace Bcrypt

variable {b : Bcrypt} {records : List (RStr × RStr)} {user hash record arg : RStr} {found : User}

theorem fromHash_eq_some (got : b.fromHash record = some found) :
    (splitSpace record).head? = some found.hash ∧ b.secret found.hash ≠ none := by
  unfold fromHash at got
  split at got
  · cases got
  · rename_i words
    split at got
    · cases got
    · rename_i isHash
      obtain rfl := Option.some.inj got
      exact ⟨by rw [words]; rfl, isHash⟩

/-- What `get_user` makes of a record has the record's password. -/
theorem passwordOf_getUser (named : refKeys user = [user])
    (got : b.getUser records user = some found) :
    b.passwordOf records user = b.secret found.hash := by
  unfold getUser at got
  rw [named] at got
  simp only [List.map_cons, List.map_nil] at got
  split at got
  · rename_i reply received
    obtain ⟨t, whole, spaces⟩ := received_single received
    cases here : records.lookup user with
    | none =>
        -- the words of the error text are no hash
        have text : lit "-nil" = reply ++ t := by
          rw [here] at whole
          exact whole
        have noEnd : t = [] := by
          rw [List.eq_nil_iff_forall_not_mem]
          intro c member
          have inText : c ∈ lit "-nil" := text ▸ List.mem_append_right reply member
          have spaceless : ∀ c ∈ lit "-nil", isSpace c = false := by decide +kernel
          have isSpace := spaces c member
          rw [spaceless c inText] at isSpace
          cases isSpace
        subst noEnd
        obtain rfl : reply = lit "-nil" := by rw [text, List.append_nil]
        obtain ⟨words, isHash⟩ := fromHash_eq_some got
        have word : (splitSpace (rchompPlus (lit "-nil"))).head? = some (lit "-nil") := by decide
        rw [word] at words
        obtain ⟨dollar, _⟩ := b.dollar _ isHash
        rw [← Option.some.inj words] at dollar
        exact absurd dollar (by decide)
    | some record =>
        have text : 43 :: record = reply ++ t := by
          rw [here] at whole
          exact whole
        cases reply with
        | nil =>
            have plus := spaces 43 ((show 43 :: record = t from text) ▸ List.mem_cons_self)
            cases plus
        | cons c reply =>
            obtain ⟨rfl, rfl⟩ := List.cons.inj text
            have read : b.fromHash (reply ++ t) = some found := by
              unfold fromHash
              rw [splitSpace_append_spaces reply spaces]
              exact got
            rw [passwordOf, here, Option.bind_some, show reply.append t = reply ++ t from rfl, read,
              Option.bind_some]
  · cases got

theorem passwordOf_put_ne {other : RStr} (apart : other ≠ user) :
    b.passwordOf (put records user record) other = b.passwordOf records other := by
  rw [passwordOf, lookup_put, if_neg apart, passwordOf]

theorem passwordOf_unbind_ne {other : RStr} (apart : other ≠ user) :
    b.passwordOf (unbind records user) other = b.passwordOf records other := by
  rw [passwordOf, lookup_unbind, if_neg apart, passwordOf]

end Bcrypt

namespace Realm

variable {ι τ : Type}

/-- The password of the copy that a node keeps. -/
def copyOf (b : Bcrypt) (s : Realm ι τ) (node : ι) (user : RStr) : Option RStr :=
  ((s.users node).lookup user).bind fun u => b.secret u.hash

/-- No login with a revoked password has succeeded. -/
def StaysRevoked (s : Realm ι τ) : Prop := ∀ l ∈ s.logins, l.late = true → l.result = false

/-- A login happens at a node that the owner knows, a command is about a user whose name
comes back from its texts, and a login stores what the record says now, or before the node
is told to drop the copy. -/
def Timely (b : Bcrypt) (table : List ι) (s : Realm ι τ) : Event ι τ → Prop
  | .auth _ node _ _ => node ∈ table
  | .usermod _ user _ => NamesItself user
  | .userdel _ user => NamesItself user
  | .store t => ∀ node user password late found,
    s.thread t = .asked node user password late found → NamesItself user →
      b.passwordOf s.records user = b.secret found.hash ∨
        ∃ t' pending, s.thread t' = .poisoning user (b.secret found.hash) pending ∧ node ∈ pending
  | _ => True

/-! ## The invariant -/

/-- The user is not let in with the password: not by the record, nor by the copies at
some nodes. -/
structure Barred (b : Bcrypt) (s : Realm ι τ) (user password : RStr) (nodes : ι → Prop) :
    Prop where
  named : NamesItself user
  record : b.passwordOf s.records user ≠ some password
  copies : ∀ i, nodes i → s.copyOf b i user ≠ some password

/-- What holds of a thread. -/
def Fits (b : Bcrypt) (table : List ι) (s : Realm ι τ) : Thread ι → Prop
  | .idle => True
  | .asking node user password late =>
    node ∈ table ∧ (late = true → (user, password) ∈ s.revoked)
  | .asked node user password late found =>
    node ∈ table ∧
      (late = true → (user, password) ∈ s.revoked ∧ b.secret found.hash ≠ some password)
  | .hashing user _ _ => NamesItself user
  | .deleting user => NamesItself user
  | .poisoning user old pending =>
    NamesItself user ∧ ∀ p, old = some p →
      s.Barred b user p (fun i => i ∈ table ∧ i ∉ pending) ∧ (user, p) ∉ s.revoked

structure Sound (b : Bcrypt) (table : List ι) (s : Realm ι τ) : Prop where
  threads : ∀ t, s.Fits b table (s.thread t)
  revoked : ∀ user p, (user, p) ∈ s.revoked → s.Barred b user p (· ∈ table)
  alone : ∀ t t' user p pending pending', s.thread t = .poisoning user (some p) pending →
    s.thread t' = .poisoning user (some p) pending' → t = t'
  logins : s.StaysRevoked

variable {b : Bcrypt} {owner : ι} {table : List ι} {s s' : Realm ι τ} {t : τ}

theorem Fits.carry {thread : Thread ι} (fits : s.Fits b table thread)
    (revoked : s'.revoked = s.revoked)
    (barred : ∀ user p nodes, s.Barred b user p nodes → s'.Barred b user p nodes) :
    s'.Fits b table thread := by
  cases thread with
  | idle => trivial
  | asking node user password late => exact ⟨fits.1, revoked ▸ fits.2⟩
  | asked node user password late found => exact ⟨fits.1, revoked ▸ fits.2⟩
  | hashing user record arg => exact fits
  | deleting user => exact fits
  | poisoning user old pending =>
      refine ⟨fits.1, ?_⟩
      intro p isOld
      obtain ⟨taken, fresh⟩ := fits.2 p isOld
      exact ⟨barred user p _ taken, revoked ▸ fresh⟩

theorem Barred.carry {user p : RStr} {nodes : ι → Prop} (barred : s.Barred b user p nodes)
    (records : s'.records = s.records) (users : s'.users = s.users) :
    s'.Barred b user p nodes := by
  refine ⟨barred.named, records ▸ barred.record, ?_⟩
  intro i inside
  have copy := barred.copies i inside
  unfold copyOf at copy ⊢
  rw [users]
  exact copy

section Users

variable [DecidableEq ι]

theorem copyOf_uncache (s : Realm ι τ) (node i : ι) (user u : RStr) :
    (s.uncache node user).copyOf b i u =
      if i = node ∧ u = user then none else s.copyOf b i u := by
  unfold copyOf uncache
  by_cases here : i = node
  · subst here
    simp only [Function.update_self, lookup_unbind, true_and]
    split <;> rfl
  · simp [here]

theorem copyOf_cache (s : Realm ι τ) (node i : ι) (user u : RStr) (found : User) :
    (s.cache node user found).copyOf b i u =
      if i = node ∧ u = user then b.secret found.hash else s.copyOf b i u := by
  unfold copyOf cache
  by_cases here : i = node
  · subst here
    simp only [Function.update_self, lookup_put, true_and]
    split <;> rfl
  · simp [here]

theorem Barred.uncache {user p : RStr} {nodes : ι → Prop} (barred : s.Barred b user p nodes)
    (node : ι) (u : RStr) : (s.uncache node u).Barred b user p nodes := by
  refine ⟨barred.named, barred.record, ?_⟩
  intro i inside
  rw [copyOf_uncache]
  split
  · exact Option.some_ne_none p ∘ Eq.symm
  · exact barred.copies i inside

/-- A node drops a copy. -/
theorem Sound.uncache (sound : s.Sound b table) (node : ι) (user : RStr) :
    (s.uncache node user).Sound b table where
  threads t := (sound.threads t).carry rfl fun _ _ _ barred => barred.uncache node user
  revoked u p member := (sound.revoked u p member).uncache node user
  alone := sound.alone
  logins := sound.logins

theorem Barred.cache {user p : RStr} {nodes : ι → Prop} (barred : s.Barred b user p nodes)
    {node : ι} {u : RStr} {found : User}
    (other : nodes node → user = u → b.secret found.hash ≠ some p) :
    (s.cache node u found).Barred b user p nodes := by
  refine ⟨barred.named, barred.record, ?_⟩
  intro i inside
  rw [copyOf_cache]
  split
  · rename_i here
    exact other (here.1 ▸ inside) here.2
  · exact barred.copies i inside

end Users

/-- A login returns. -/
theorem Sound.answered (sound : s.Sound b table) {late result : Bool}
    (denied : late = true → result = false) : (s.answered late result).Sound b table where
  threads t := (sound.threads t).carry rfl fun _ _ _ barred => barred.carry rfl rfl
  revoked u p member := (sound.revoked u p member).carry rfl rfl
  alone := sound.alone
  logins l member := by
    rcases List.mem_cons.mp member with rfl | before
    · exact denied
    · exact sound.logins l before

theorem sound_start (records : List (RStr × RStr)) (users : ι → List (RStr × User)) :
    (start records users : Realm ι τ).Sound b table where
  threads _ := trivial
  revoked _ _ member := absurd member List.not_mem_nil
  alone _ _ _ _ _ _ poisoning := nomatch poisoning
  logins _ member := absurd member List.not_mem_nil

theorem renew_eq_poisoning {thread : Thread ι} {user u p : RStr} {new : Option RStr}
    {pending : List ι} (now : thread.renew user new = .poisoning u (some p) pending) :
    thread = .poisoning u (some p) pending ∧ ¬(u = user ∧ some p = new) := by
  cases thread with
  | poisoning u' old' pending' =>
      rw [Thread.renew] at now
      injection now with sameUser sameOld samePending
      subst sameUser samePending
      split at sameOld
      · cases sameOld
      · rename_i other
        subst sameOld
        exact ⟨rfl, other⟩
  | idle | asking | asked | hashing | deleting => cases now

/-- A command that is under way took its password before. -/
theorem Sound.other_of_poisoning (sound : s.Sound b table) {t' : τ} {user u p : RStr}
    {new : Option RStr} {pending : List ι}
    (isOld : (if b.passwordOf s.records user = new then none
      else b.passwordOf s.records user) = some p)
    (before : s.thread t' = .poisoning u (some p) pending) : u ≠ user := by
  intro same
  subst same
  have taken := sound.threads t'
  rw [before] at taken
  split at isOld
  · cases isOld
  · exact (taken.2 p rfl).1.record isOld

section Threads

variable [DecidableEq τ]

/-- A thread goes on, and nothing else changes. -/
theorem Sound.set (sound : s.Sound b table) {thread : Thread ι} (fits : s.Fits b table thread)
    (same : ∀ user p pending, thread = .poisoning user (some p) pending →
      ∃ pending', s.thread t = .poisoning user (some p) pending') :
    (s.set t thread).Sound b table := by
  have before : ∀ t' user p pending,
      (s.set t thread).thread t' = .poisoning user (some p) pending →
        ∃ pending', s.thread t' = .poisoning user (some p) pending' := by
    intro t' user p pending now
    rw [thread_set] at now
    split at now
    · rename_i here
      exact here ▸ same user p pending now
    · exact ⟨pending, now⟩
  refine ⟨?_, ?_, ?_, sound.logins⟩
  · intro t'
    suffices s.Fits b table ((s.set t thread).thread t') from
      this.carry rfl fun _ _ _ barred => barred.carry rfl rfl
    rw [thread_set]
    split
    · exact fits
    · exact sound.threads t'
  · intro user p member
    exact (sound.revoked user p member).carry rfl rfl
  · intro t₁ t₂ user p L₁ L₂ first second
    obtain ⟨L₁', first⟩ := before t₁ user p L₁ first
    obtain ⟨L₂', second⟩ := before t₂ user p L₂ second
    exact sound.alone t₁ t₂ user p L₁' L₂' first second

theorem mem_revoked_rewrite {user u p : RStr} {records : List (RStr × RStr)} :
    (u, p) ∈ (s.rewrite b table t user records).revoked ↔
      (u, p) ∈ s.revoked ∧ ¬(u = user ∧ some p = b.passwordOf records user) := by
  unfold Realm.rewrite
  simp [List.mem_filter, imp_iff_not_or]

theorem Barred.rewrite {u p user : RStr} {nodes : ι → Prop} (barred : s.Barred b u p nodes)
    {records : List (RStr × RStr)}
    (others : ∀ u, u ≠ user → b.passwordOf records u = b.passwordOf s.records u)
    (other : ¬(u = user ∧ some p = b.passwordOf records user)) :
    (s.rewrite b table t user records).Barred b u p nodes := by
  refine ⟨barred.named, ?_, barred.copies⟩
  change b.passwordOf records u ≠ some p
  by_cases here : u = user
  · subst here
    exact fun same => other ⟨rfl, same.symm⟩
  · rw [others u here]
    exact barred.record

/-- A thread that goes on with what it is doing, after a record has changed. -/
theorem Fits.renew {thread : Thread ι} (fits : s.Fits b table thread) {user : RStr}
    {records : List (RStr × RStr)}
    (others : ∀ u, u ≠ user → b.passwordOf records u = b.passwordOf s.records u) :
    (s.rewrite b table t user records).Fits b table
      (thread.renew user (b.passwordOf records user)) := by
  cases shape : thread with
  | idle => trivial
  | asking node u p late =>
      rw [shape] at fits
      refine ⟨fits.1, ?_⟩
      intro isLate
      rw [Bool.and_eq_true] at isLate
      exact mem_revoked_rewrite.mpr ⟨fits.2 isLate.1, by simpa [imp_iff_not_or] using isLate.2⟩
  | asked node u p late found =>
      rw [shape] at fits
      refine ⟨fits.1, ?_⟩
      intro isLate
      rw [Bool.and_eq_true] at isLate
      obtain ⟨member, wrong⟩ := fits.2 isLate.1
      exact ⟨mem_revoked_rewrite.mpr ⟨member, by simpa [imp_iff_not_or] using isLate.2⟩, wrong⟩
  | hashing u record arg =>
      rw [shape] at fits
      exact fits
  | deleting u =>
      rw [shape] at fits
      exact fits
  | poisoning u old pending =>
      rw [shape] at fits
      refine ⟨fits.1, ?_⟩
      intro p isOld
      have now : thread.renew user (b.passwordOf records user) = .poisoning u (some p) pending := by
        rw [shape, Thread.renew, isOld]
      obtain ⟨before, other⟩ := renew_eq_poisoning now
      rw [shape] at before
      injection before with _ same _
      obtain ⟨taken, fresh⟩ := fits.2 p same
      exact ⟨taken.rewrite others other, fun member => fresh (mem_revoked_rewrite.mp member).1⟩

/-- The thread that has changed the record, before it poisons any node. -/
theorem Sound.fits_taken (sound : s.Sound b table) {user : RStr} (named : NamesItself user)
    {records : List (RStr × RStr)} :
    (s.rewrite b table t user records).Fits b table (.poisoning user
      (if b.passwordOf s.records user = b.passwordOf records user then none
        else b.passwordOf s.records user) table) := by
  refine ⟨named, ?_⟩
  intro p isOld
  split at isOld
  · cases isOld
  · rename_i changed
    refine ⟨⟨named, ?_, ?_⟩, ?_⟩
    · intro same
      exact changed (isOld.trans same.symm)
    · intro i found
      obtain ⟨inside, outside⟩ := found
      exact absurd inside outside
    · intro member
      exact (sound.revoked user p (mem_revoked_rewrite.mp member).1).record isOld

theorem Sound.alone_rewrite (sound : s.Sound b table) {user : RStr}
    {records : List (RStr × RStr)} (t₁ t₂ : τ) (u p : RStr) (L₁ L₂ : List ι)
    (first : (s.rewrite b table t user records).thread t₁ = .poisoning u (some p) L₁)
    (second : (s.rewrite b table t user records).thread t₂ = .poisoning u (some p) L₂) :
    t₁ = t₂ := by
  rw [thread_rewrite] at first second
  split at first
  · rename_i here₁
    split at second
    · rename_i here₂
      rw [here₁, here₂]
    · injection first with sameUser isOld _
      obtain ⟨before, _⟩ := renew_eq_poisoning second
      exact absurd sameUser.symm (sound.other_of_poisoning isOld before)
  · obtain ⟨before₁, _⟩ := renew_eq_poisoning first
    split at second
    · injection second with sameUser isOld _
      exact absurd sameUser.symm (sound.other_of_poisoning isOld before₁)
    · obtain ⟨before₂, _⟩ := renew_eq_poisoning second
      exact sound.alone t₁ t₂ u p L₁ L₂ before₁ before₂

end Threads

variable [DecidableEq τ] [DecidableEq ι]

/-! ## Logins -/

theorem Sound.auth (sound : s.Sound b table) {node : ι} (known : node ∈ table)
    {user password : RStr} (fired : s.step b owner table (.auth t node user password) = some s') :
    s'.Sound b table := by
  have asks : (s.set t (.asking node user password
      (s.isRevoked user password))).Sound b table := by
    refine sound.set ⟨known, of_decide_eq_true⟩ ?_
    intro _ _ _ isPoisoning
    cases isPoisoning
  rw [step] at fired
  split at fired
  · split at fired
    · obtain rfl := Option.some.inj fired
      exact asks
    · rename_i u kept
      split at fired
      · rename_i accepted
        obtain rfl := Option.some.inj fired
        refine sound.answered ?_
        intro late
        -- the copy of a revoked password has been dropped
        have copy := (sound.revoked user password (of_decide_eq_true late)).copies node known
        rw [copyOf, kept, Option.bind_some] at copy
        exact absurd (of_decide_eq_true accepted) copy
      · obtain rfl := Option.some.inj fired
        exact asks
  · cases fired

theorem Sound.getUser (sound : s.Sound b table)
    (fired : s.step b owner table (.getUser t) = some s') : s'.Sound b table := by
  rw [step] at fired
  split at fired
  · rename_i node user password late asking
    have fits := sound.threads t
    rw [asking] at fits
    split at fired
    · obtain rfl := Option.some.inj fired
      refine sound.set trivial ?_
      intro _ _ _ isPoisoning
      cases isPoisoning
    · rename_i found got
      obtain rfl := Option.some.inj fired
      refine sound.set ⟨fits.1, ?_⟩ ?_
      · intro isLate
        have member := fits.2 isLate
        have barred := sound.revoked user password member
        have record := barred.record
        rw [Bcrypt.passwordOf_getUser barred.named.1 got] at record
        exact ⟨member, record⟩
      · intro _ _ _ isPoisoning
        cases isPoisoning
  · cases fired

theorem Sound.store (sound : s.Sound b table) (timely : s.Timely b table (.store t))
    (fired : s.step b owner table (.store t) = some s') : s'.Sound b table := by
  rw [step] at fired
  split at fired
  · rename_i node user password late found asked
    obtain rfl := Option.some.inj fired
    have fits := sound.threads t
    rw [asked] at fits
    have timely := timely node user password late found asked
    have revoked : ∀ u p, (u, p) ∈ s.revoked →
      (s.cache node user found).Barred b u p (· ∈ table) := by
      intro u p member
      have barred := sound.revoked u p member
      refine barred.cache ?_
      intro _ same stale
      obtain rfl := same
      rcases timely barred.named with current | ⟨t', pending, poisoning, _⟩
      · exact barred.record (current.trans stale)
      · have taken := sound.threads t'
        rw [poisoning, stale] at taken
        exact (taken.2 p rfl).2 member
    have poisoning : ∀ t' u p pending, s.thread t' = .poisoning u (some p) pending →
        (s.cache node user found).Barred b u p (fun i => i ∈ table ∧ i ∉ pending) := by
      intro t' u p pending poisoning
      have taken := sound.threads t'
      rw [poisoning] at taken
      have barred := (taken.2 p rfl).1
      refine barred.cache ?_
      intro found same stale
      obtain ⟨_, outside⟩ := found
      obtain rfl := same
      rcases timely barred.named with current | ⟨t'', pending', poisoning', inside⟩
      · exact barred.record (current.trans stale)
      · rw [stale] at poisoning'
        obtain rfl := sound.alone t' t'' u p _ _ poisoning poisoning'
        rw [poisoning] at poisoning'
        injection poisoning' with _ _ same
        exact outside (same ▸ inside)
    have cached : (s.cache node user found).Sound b table := by
      refine ⟨?_, revoked, sound.alone, sound.logins⟩
      intro t'
      have fits := sound.threads t'
      change (s.cache node user found).Fits b table (s.thread t')
      cases shape : s.thread t' with
      | poisoning u old pending =>
          rw [shape] at fits
          refine ⟨fits.1, ?_⟩
          intro p same
          obtain rfl := same
          exact ⟨poisoning t' u p pending shape, (fits.2 p rfl).2⟩
      | idle => trivial
      | asking | asked | hashing | deleting =>
          rw [shape] at fits
          exact fits
    have rests : ((s.cache node user found).set t .idle).Sound b table := by
      refine cached.set trivial ?_
      intro _ _ _ isPoisoning
      cases isPoisoning
    refine rests.answered ?_
    intro isLate
    exact decide_eq_false (fits.2 isLate).2
  · cases fired

/-! ## Commands -/

theorem Sound.usermod (sound : s.Sound b table) {user action : RStr} (named : NamesItself user)
    (fired : s.step b owner table (.usermod t user action) = some s') : s'.Sound b table := by
  rw [step] at fired
  split at fired
  · split at fired
    · obtain rfl := Option.some.inj fired
      exact sound
    · split at fired
      · obtain rfl := Option.some.inj fired
        refine sound.set named ?_
        intro _ _ _ isPoisoning
        cases isPoisoning
      · cases fired
    · obtain rfl := Option.some.inj fired
      exact sound
  · cases fired

theorem Sound.userdel (sound : s.Sound b table) {user : RStr} (named : NamesItself user)
    (fired : s.step b owner table (.userdel t user) = some s') : s'.Sound b table := by
  rw [step] at fired
  split at fired
  · split at fired
    · obtain rfl := Option.some.inj fired
      refine (sound.uncache owner user).set named ?_
      intro _ _ _ isPoisoning
      cases isPoisoning
    · obtain rfl := Option.some.inj fired
      exact sound
  · cases fired

omit [DecidableEq ι] in
/-- A record is changed: what was revoked stays barred, unless it is the new password. -/
theorem Sound.rewrite (sound : s.Sound b table) {user : RStr} (named : NamesItself user)
    {records : List (RStr × RStr)}
    (others : ∀ u, u ≠ user → b.passwordOf records u = b.passwordOf s.records u) :
    (s.rewrite b table t user records).Sound b table := by
  refine ⟨?_, ?_, sound.alone_rewrite, sound.logins⟩
  · intro t'
    rw [thread_rewrite]
    split
    · exact sound.fits_taken named
    · exact (sound.threads t').renew others
  · intro u p member
    obtain ⟨before, other⟩ := mem_revoked_rewrite.mp member
    exact (sound.revoked u p before).rewrite others other

theorem Sound.write (sound : s.Sound b table) {hash : RStr}
    (fired : s.step b owner table (.write t hash) = some s') : s'.Sound b table := by
  rw [step] at fired
  split at fired
  · rename_i user record arg hashing
    have named := sound.threads t
    rw [hashing] at named
    split at fired
    · obtain rfl := Option.some.inj fired
      exact sound.rewrite named fun u other => Bcrypt.passwordOf_put_ne other
    · cases fired
  · cases fired

theorem Sound.delete (sound : s.Sound b table)
    (fired : s.step b owner table (.delete t) = some s') : s'.Sound b table := by
  rw [step] at fired
  split at fired
  · rename_i user deleting
    have named := sound.threads t
    rw [deleting] at named
    obtain rfl := Option.some.inj fired
    exact sound.rewrite named fun u other => Bcrypt.passwordOf_unbind_ne other
  · cases fired

theorem Sound.poison (sound : s.Sound b table) {node : ι}
    (fired : s.step b owner table (.poison t node) = some s') : s'.Sound b table := by
  rw [step] at fired
  split at fired
  · rename_i user old pending poisoning
    have fits := sound.threads t
    rw [poisoning] at fits
    obtain ⟨named, taken⟩ := fits
    split at fired
    · rw [named.2] at fired
      obtain rfl := Option.some.inj fired
      change ((s.uncache node user).set t (.poisoning user old (pending.erase node))).Sound b table
      refine (sound.uncache node user).set ⟨named, ?_⟩ ?_
      · intro p isOld
        obtain ⟨barred, fresh⟩ := taken p isOld
        refine ⟨⟨named, barred.record, ?_⟩, fresh⟩
        intro i found
        obtain ⟨inside, outside⟩ := found
        rw [copyOf_uncache]
        split
        · exact Option.some_ne_none p ∘ Eq.symm
        · rename_i elsewhere
          refine barred.copies i ⟨inside, ?_⟩
          intro waiting
          have other : i ≠ node := fun same => elsewhere ⟨same, rfl⟩
          exact outside ((List.mem_erase_of_ne other).mpr waiting)
      · intro u p pending' same
        injection same with sameUser sameOld _
        exact ⟨pending, by rw [← sameUser, ← sameOld]; exact poisoning⟩
    · cases fired
  · cases fired

theorem Sound.reply (sound : s.Sound b table)
    (fired : s.step b owner table (.reply t) = some s') : s'.Sound b table := by
  rw [step] at fired
  split at fired
  · rename_i user old poisoning
    have fits := sound.threads t
    rw [poisoning] at fits
    obtain rfl := Option.some.inj fired
    have longer : ∀ u p, (u, p) ∈ s.revoked →
        (u, p) ∈ (old.map fun p => (user, p)).toList ++ s.revoked :=
      fun u p member => List.mem_append_right _ member
    have barred : ∀ u p nodes, s.Barred b u p nodes →
        ({ s.set t .idle with
            revoked := (old.map fun p => (user, p)).toList ++ s.revoked } :
          Realm ι τ).Barred b u p nodes := fun u p nodes barred => barred.carry rfl rfl
    refine ⟨?_, ?_, ?_, sound.logins⟩
    · intro t'
      change Realm.Fits b table _ ((s.set t .idle).thread t')
      rw [thread_set]
      split
      · trivial
      · rename_i apart
        have fits := sound.threads t'
        cases shape : s.thread t' with
        | idle => trivial
        | asking node u p late =>
            rw [shape] at fits
            exact ⟨fits.1, fun isLate => longer u p (fits.2 isLate)⟩
        | asked node u p late found =>
            rw [shape] at fits
            exact ⟨fits.1, fun isLate => ⟨longer u p (fits.2 isLate).1, (fits.2 isLate).2⟩⟩
        | hashing u record arg =>
            rw [shape] at fits
            exact fits
        | deleting u =>
            rw [shape] at fits
            exact fits
        | poisoning u old' pending =>
            rw [shape] at fits
            refine ⟨fits.1, ?_⟩
            intro p same
            obtain rfl := same
            obtain ⟨taken, fresh⟩ := fits.2 p rfl
            refine ⟨barred u p _ taken, ?_⟩
            intro member
            rcases List.mem_append.mp member with new | before
            · cases old with
              | none => cases new
              | some p' =>
                  obtain ⟨rfl, rfl⟩ : u = user ∧ p = p' := by simpa using new
                  exact apart (sound.alone t' t u p _ _ shape poisoning)
            · exact fresh before
    · intro u p member
      rcases List.mem_append.mp member with new | before
      · cases old with
        | none => cases new
        | some p' =>
            obtain ⟨rfl, rfl⟩ : u = user ∧ p = p' := by simpa using new
            obtain ⟨named, record, copies⟩ := barred u p _ (fits.2 p rfl).1
            exact ⟨named, record, fun i inside => copies i ⟨inside, List.not_mem_nil⟩⟩
      · exact barred u p _ (sound.revoked u p before)
    · have rests : (s.set t .idle).Sound b table := by
        refine sound.set trivial ?_
        intro _ _ _ isPoisoning
        cases isPoisoning
      exact rests.alone
  · cases fired

/-! ## Runs -/

theorem Sound.step (sound : s.Sound b table) {e : Event ι τ} (timely : s.Timely b table e)
    (fired : s.step b owner table e = some s') : s'.Sound b table := by
  cases e with
  | auth t node user password => exact sound.auth timely fired
  | getUser t => exact sound.getUser fired
  | store t => exact sound.store timely fired
  | usermod t user action => exact sound.usermod timely fired
  | write t hash => exact sound.write fired
  | userdel t user => exact sound.userdel timely fired
  | delete t => exact sound.delete fired
  | poison t node => exact sound.poison fired
  | reply t => exact sound.reply fired

/-- In every run whose events are timely, no login with a revoked password succeeds. -/
theorem stays_revoked {records : List (RStr × RStr)} {users : ι → List (RStr × User)}
    (run : Reach (Realm.step b owner table) (Timely b table) (start records users : Realm ι τ) s) :
    s.StaysRevoked :=
  (run.invariant (sound_start records users) fun sound timely fired =>
    sound.step timely fired).logins

/-! ## Two runs -/

private def hashA : RStr :=
  lit "$2a$06$m0CrhHm10" ++ lit "qJ3lXRY.5zDGO3rS" ++ lit "2KdeeWLuGmsfGlM" ++ lit "fOxih58VYVfxe"

private def hashAbc : RStr :=
  lit "$2a$06$If6bvum7D" ++ lit "FjUnE9p2uDeDu0Y" ++ lit "HzrHM6tf.iqN8.yx" ++ lit ".jNN1ILEf7h0i"

/-- Two texts that are hashes. -/
private def twoHashes : Bcrypt where
  secret hash := if hash = hashA then some (lit "a") else if hash = hashAbc then some (lit "abc")
    else none
  dollar hash isHash := by
    have proper : ∀ h ∈ [hashA, hashAbc], h.head? = some 36 ∧ ∀ b ∈ h, isSpace b = false := by
      have checked : [hashA, hashAbc].all
          (fun h => h.head? == some 36 && h.all fun b => !isSpace b) = true := by
        decide +kernel
      simpa using checked
    split at isHash
    · rename_i same
      exact proper hash (by simp [same])
    · split at isHash
      · rename_i same
        exact proper hash (by simp [same])
      · exact absurd rfl isHash

private def oneUser : Realm Bool Bool := start [(lit "u", hashA ++ lit " 1")] fun _ => []

/-- The second thread changes the password at the first node. -/
private def changing : List (Event Bool Bool) :=
  [.usermod true (lit "u") (lit "PASS=abc"), .write true hashAbc, .poison true true,
    .poison true false, .reply true]

private def timely (s : Realm Bool Bool) : Event Bool Bool → Bool
  | .auth _ node _ _ => node ∈ [true, false]
  | .usermod _ user _ => !user.isEmpty && user.all isPlain
  | .userdel _ user => !user.isEmpty && user.all isPlain
  | .store t =>
    match s.thread t with
    | .asked _ user _ _ found =>
      twoHashes.passwordOf s.records user = twoHashes.secret found.hash
    | _ => true
  | _ => true

private theorem timely_of_timely (s : Realm Bool Bool) (e : Event Bool Bool)
    (isTimely : timely s e = true) : s.Timely twoHashes [true, false] e := by
  cases e with
  | auth t node user password =>
      have known : node ∈ [true, false] := of_decide_eq_true isTimely
      exact known
  | usermod t user action | userdel t user =>
      have plain : PlainWord user := by simpa [timely, PlainWord] using isTimely
      exact namesItself_of_plainWord plain
  | store t =>
      intro node user password late found asked _
      rw [timely, asked] at isTimely
      exact Or.inl (of_decide_eq_true isTimely)
  | getUser | write | delete | poison | reply => trivial

/-- The old password is tried after the change. -/
theorem stays_revoked_after_change : ∃ s, Reach (Realm.step twoHashes true [true, false])
    (Timely twoHashes [true, false]) oneUser s ∧ s.StaysRevoked ∧ ⟨true, false⟩ ∈ s.logins := by
  have runs : (runEvents (Realm.step twoHashes true [true, false]) oneUser (changing ++
      [.auth false false (lit "u") (lit "a"), .getUser false, .store false])).any
        (fun s => decide (⟨true, false⟩ ∈ s.logins)) = true := by
    decide +kernel
  obtain ⟨s, ran, tried⟩ := (Option.any_eq_true ..).mp runs
  have run : Reach (Realm.step twoHashes true [true, false]) (Timely twoHashes [true, false])
      oneUser s :=
    Reach.of_guardedEvents timely timely_of_timely _ (by decide +kernel) ran
  exact ⟨s, run, stays_revoked run, of_decide_eq_true tried⟩

/-- A login that has read the record before the change stores it after its node was
told to drop it. -/
theorem old_password_returns : ¬ ∀ s, Reachable (Realm.step twoHashes true [true, false])
    oneUser s → s.StaysRevoked := by
  intro always
  have runs : (runEvents (Realm.step twoHashes true [true, false]) oneUser
      ([.auth false false (lit "u") (lit "a"), .getUser false] ++ changing ++
        [.store false, .auth false false (lit "u") (lit "a")])).any
        (fun s => decide (⟨true, true⟩ ∈ s.logins)) = true := by
    decide +kernel
  obtain ⟨s, ran, letIn⟩ := (Option.any_eq_true ..).mp runs
  have denied := always s (Reachable.of_runEvents _ ran) _ (of_decide_eq_true letIn) rfl
  cases denied

end Realm

end XFireDB
