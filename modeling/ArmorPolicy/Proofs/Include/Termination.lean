import ArmorPolicy.Proofs.Include.Memo

/-!
# Reading includes comes to an end

A reading goes deeper for each file that includes another one, and nothing but the files themselves
bounds how deep.  Cut at a depth, with any answer in place of what lies below, it gives the same from
some depth on, whatever that answer is: the cut is never reached.  This holds in every session, also
when other files are in progress.
-/

namespace ArmorPolicy.Include

open Reading Reader

/-- Reads an included file; `stop` answers for all that is included deeper than `depth`. -/
def readUpTo (files : FileSystem) (stop : String → Checked Fragment) : Nat → String → Reading Fragment
  | 0, path => ofChecked (stop path)
  | depth + 1, path => readOnce files (readUpTo files stop depth) path

/-- Reads a text of profiles; `stop` answers for all that is included deeper than `depth`. -/
def textUpTo (files : FileSystem) (stop : String → Checked Fragment) (depth : Nat)
    (content filename : String) : Reading ParsedFile := do
  let state ← Reader.read .profiles (resolveWith files (readUpTo files stop depth)) filename content
  return state.parsed

/-- What `readUpTo` does to the memo inside of the files of a chain. -/
def loadUpTo (files : FileSystem) (config : Config) (stop : String → Checked Fragment) :
    Nat → List (List String) → String → Loading Fragment
  | 0, _, path => .ofChecked (stop path)
  | depth + 1, chain, path => loadOnce files config (loadUpTo files config stop depth) chain path

variable {files : FileSystem} {config : Config} {stop : String → Checked Fragment}
  {chain others : List (List String)} {depth enough : Nat} {path : String} {memo : Memo}

theorem follows_readUpTo (depth : Nat) (path : String) :
    (readUpTo files stop depth path).Follows config chain (loadUpTo files config stop depth chain path) := by
  induction depth generalizing chain path with
  | zero => exact follows_ofChecked _
  | succ depth ih => exact follows_readOnce fun asked => ih asked

/-! ## The cut is not reached -/

theorem answer_loadUpTo_placed {last name : List String} {text filename : String}
    (unknown : ∀ other ∈ name :: chain, memo.get? other = none)
    (linked : Linked files config memo name chain) (inside : last ∈ chain)
    (source : files.textOf? last = some text) :
    answer (load files config (enough + 1) (name :: (chain ++ others))) filename
        (requestsOf files config text) memo =
      answer (loadUpTo files config stop (depth + 1) (name :: (chain ++ others))) filename
        (requestsOf files config text) memo := by
  obtain ⟨next, among, again, before, line, asked, behind, lastSource, split, rfl, known⟩ :=
    linked.exists_suspended inside
  obtain rfl : again = text := Option.some.inj (lastSource.symm.trans source)
  have inProgress : files.includeName asked ∈ name :: (chain ++ others) := by
    rw [← List.cons_append]
    exact List.mem_append_left others among
  rw [split, answer_cycle known (unknown _ among) inProgress]
  refine (answer_stops (fun request earlier => ?_) (loadOnce_cycle (unknown _ among) inProgress)).symm
  obtain ⟨fragment, found⟩ := Option.isSome_iff_exists.mp (known request earlier)
  exact ⟨fragment, loadOnce_known found⟩

theorem answer_loadUpTo_unplaced {name : List String} {text filename : String}
    (unknown : ∀ other ∈ name :: chain, memo.get? other = none)
    (linked : Linked files config memo name chain) (source : files.textOf? name = some text)
    (deeper : ∀ path memo, Linked files config memo (files.includeName path) (name :: chain) →
      (∀ other ∈ name :: chain, memo.get? other = none) →
      load files config enough (name :: (chain ++ others)) path memo =
        loadUpTo files config stop depth (name :: (chain ++ others)) path memo) :
    answer (load files config enough (name :: (chain ++ others))) filename
        (requestsOf files config text) memo =
      answer (loadUpTo files config stop depth (name :: (chain ++ others))) filename
        (requestsOf files config text) memo := by
  refine answer_related (fun _ _ same => by rw [same]) ?_ (rfl : memo = memo)
  rintro before line asked behind split first _ grown known rfl
  have stillLinked : Linked files config first (files.includeName asked) (name :: chain) :=
    ⟨⟨text, before, line, asked, behind, source, split, rfl, known⟩, linked.mono grown⟩
  have stillUnknown : ∀ other ∈ name :: chain, first.get? other = none := by
    intro other among
    refine grown.spares other ?_ (unknown other among)
    rw [← List.cons_append]
    exact List.mem_append_left others among
  rw [answer_cons, ← deeper asked first stillLinked stillUnknown]
  rcases load files config enough (name :: (chain ++ others)) asked first with ⟨error | fragment, next⟩
  · exact .inr ⟨error, next, rfl, rfl⟩
  · exact .inl ⟨fragment, fragment, next, next, rfl, rfl, rfl⟩

/-- With depth for every place that is left, the cut is not reached.  Only the files that were opened
since the start have to be linked; the others may be any. -/
theorem loadUpTo_eq_load (linked : Linked files config memo (files.includeName path) chain)
    (fresh : ∀ other ∈ chain, memo.get? other = none)
    (enoughDepth : (unused files chain).length + 2 ≤ depth)
    (enoughBound : (unused files chain).length + 2 ≤ enough) :
    load files config enough (chain ++ others) path memo =
      loadUpTo files config stop depth (chain ++ others) path memo := by
  induction depth generalizing enough chain path memo with
  | zero => omega
  | succ depth ih =>
    obtain ⟨enough, rfl⟩ : ∃ further, enough = further + 1 := ⟨enough - 1, by omega⟩
    rw [load, loadUpTo]
    cases known : memo.get? (files.includeName path) with
    | some fragment => rw [loadOnce_known known, loadOnce_known known]
    | none =>
      by_cases inside : files.includeName path ∈ chain ++ others
      · rw [loadOnce_cycle known inside, loadOnce_cycle known inside]
      · cases file : files.isFile (files.includeKey path) with
        | false => rw [loadOnce_missing known inside file, loadOnce_missing known inside file]
        | true =>
          rw [loadOnce_file known inside file, loadOnce_file known inside file]
          cases read : files.readText (files.includeKey path) with
          | error error => rfl
          | ok text =>
            have source := FileSystem.textOf?_of_readText read
            have unknown : ∀ other ∈ files.includeName path :: chain, memo.get? other = none :=
              List.forall_mem_cons.mpr ⟨known, fresh⟩
            have answered :
                answer (load files config enough (files.includeName path :: (chain ++ others)))
                  (files.includeKey path) (requestsOf files config text) memo =
                answer (loadUpTo files config stop depth (files.includeName path :: (chain ++ others)))
                  (files.includeKey path) (requestsOf files config text) memo := by
              rcases placed_or_unused_lt chain source with ⟨last, among, same⟩ | less
              · obtain ⟨depth, rfl⟩ : ∃ further, depth = further + 1 := ⟨depth - 1, by omega⟩
                obtain ⟨enough, rfl⟩ : ∃ further, enough = further + 1 := ⟨enough - 1, by omega⟩
                exact answer_loadUpTo_placed unknown linked among same
              · refine answer_loadUpTo_unplaced unknown linked source fun asked after => ?_
                exact fun stillLinked stillUnknown =>
                  ih stillLinked stillUnknown (by omega) (by omega)
            simp only [Loading.bind, Loading.ofChecked, answered]

/-! ## Sessions -/

theorem load_eq_loadUpTo (stop : String → Checked Fragment) (others : List (List String))
    (enoughDepth : files.size + 2 ≤ depth) :
    load files config (files.size + 2) others = loadUpTo files config stop depth others := by
  funext path memo
  have most := length_unused_nil_le files
  exact loadUpTo_eq_load (show Linked files config memo _ [] from trivial) (by simp) (by omega) (by omega)

theorem follows_readUpTo_enough (enoughDepth : files.size + 2 ≤ depth) (path : String) :
    (readUpTo files stop depth path).Follows config chain (load files config (files.size + 2) chain path) := by
  rw [load_eq_loadUpTo stop chain enoughDepth]
  exact follows_readUpTo depth path

theorem follows_textUpTo (enoughDepth : files.size + 2 ≤ depth) (content filename : String) :
    (textUpTo files stop depth content filename).Follows config chain
      (loadText files config chain content filename) := by
  have resolves : ∀ inclusion, (resolveWith files (readUpTo files stop depth) inclusion).Follows config chain
      (loadAll (load files config (files.size + 2) chain) (wanted files config inclusion)) :=
    follows_resolveWith fun path => follows_readUpTo_enough enoughDepth path
  exact (follows_read resolves .profiles filename content).bind fun state => follows_pure state.parsed

/-- Both readings end with the same result and leave the same memo. -/
structure EndsAs {α : Type} (session : Session) (reading other : Reading α) : Prop where
  result : (reading.outcome session).1 = (other.outcome session).1
  memo : (reading.outcome session).2.memo = (other.outcome session).2.memo

theorem EndsAs.of_follows {α : Type} {session : Session} {reading other : Reading α} {loading : Loading α}
    (first : reading.Follows session.config session.inProgress loading)
    (second : other.Follows session.config session.inProgress loading) : EndsAs session reading other := by
  obtain ⟨_, firstOutcome⟩ := first session rfl rfl
  obtain ⟨_, secondOutcome⟩ := second session rfl rfl
  constructor
  · rw [firstOutcome, secondOutcome]
  · rw [firstOutcome, secondOutcome]

theorem inProgress_of_follows {α : Type} {session : Session} {reading : Reading α} {loading : Loading α}
    (follows : reading.Follows session.config session.inProgress loading) :
    (reading.outcome session).2.inProgress = session.inProgress := by
  obtain ⟨_, outcome⟩ := follows session rfl rfl
  rw [outcome]

end ArmorPolicy.Include
