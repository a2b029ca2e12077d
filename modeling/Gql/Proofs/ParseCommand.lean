import Gql.Cli.Commands
import Gql.Proofs.Acceptance
/-!
# ParseCommand — `parse` reports every file it finds

The `parse` command walks its paths, reads each file it finds and parses its text.  It owes
its caller an account of every file (`Reports`): it succeeds exactly when no walk failed and
every file it found reads and parses without a fault; it writes the JSON line of each file
that parsed, in the order found, and nothing when none did; and when it fails it writes one
diagnostic for each walk failure and for each file that did not parse, after them the count of
files parsed and of diagnostics, and nothing else.

Files are found argument by argument, each in the order its walk meets them; a lone argument
that names a file is parsed whatever its extension (`findFiles_eq`), which rests on the file
system's law that a walk from a file meets that file alone.  The main statement is
`parse_reports_every_file`.
-/
namespace Gql.Cli

/-! ### What `parse` owes -/

/-- The document in the file at `f`, when the file reads and its text parses without a fault. -/
def documentAt (fs : FileSystem) (f : String) : Option Document :=
  match fs.readText f with
  | .ok text => if (Document.parse text).error = none then some (Document.parse text).document else none
  | .error _ => none

theorem documentAt_isSome_iff {fs : FileSystem} {f : String} :
    (documentAt fs f).isSome ↔ ∃ text, fs.readText f = .ok text ∧ (Document.parse text).error = none := by
  unfold documentAt
  cases fs.readText f with
  | error e => simp
  | ok text => by_cases h : (Document.parse text).error = none <;> simp [h]

def jsonLine (pretty : Bool) (f : String) (d : Document) : String :=
  Json.render pretty (.obj [("source", .str f), ("document", d.toJson)])

/-- The last line of a failed `parse`: how many files parsed, and how many diagnostics stand
before it. -/
def parseSummary (parsed failed : Nat) : String :=
  failureMark ++ " Parsed " ++ toString parsed ++ " GraphQL files; " ++ toString failed ++ " failed."

/-- What `parse` owes for the files `files` it found, in order, and the failures
`walkFailures` of its walks.  It succeeds exactly when no walk failed and every file read and
parsed; its standard output is the lines of the files that parsed, in order, joined by line
feeds, and absent when none did; a success writes nothing to standard error; a failure exits
with 1 and writes the walk failures, then one diagnostic per file that did not parse, then the
count of files parsed and of the diagnostics before it. -/
structure Reports (fs : FileSystem) (pretty : Bool) (files walkFailures : List String) (out : Outcome) :
    Prop where
  success_iff : out.exitCode = 0 ↔
    walkFailures = [] ∧ ∀ f ∈ files, ∃ text, fs.readText f = .ok text ∧ (Document.parse text).error = none
  stdout : out.stdout =
    let lines := files.filterMap fun f => (documentAt fs f).map (jsonLine pretty f)
    if lines = [] then none else some ("\n".intercalate lines)
  quiet : out.exitCode = 0 → out.stderr = none
  failure : out.exitCode ≠ 0 → out.exitCode = 1 ∧
    ∃ others : List String, others.length = (files.filter fun f => (documentAt fs f).isNone).length ∧
      out.stderr = some ("\n".intercalate (walkFailures ++ others ++
        [parseSummary (files.filter fun f => (documentAt fs f).isSome).length
          (walkFailures ++ others).length]))

/-! ### Counting the files -/

/-- Two reports that between them cover each element satisfying `p` once, and no other, are as
many as those elements. -/
theorem length_filterMap_add {α β : Type} {l : List α} {R Q : α → Option β} {p : α → Bool}
    (h : ∀ a ∈ l, (R a).isSome.toNat + (Q a).isSome.toNat = (p a).toNat) :
    (l.filterMap R).length + (l.filterMap Q).length = (l.filter p).length := by
  induction l with
  | nil => rfl
  | cons a l ih =>
    have ha := h a List.mem_cons_self
    have hl := ih fun b hb => h b (List.mem_cons_of_mem a hb)
    rw [List.filterMap_cons, List.filterMap_cons, List.filter_cons]
    cases hR : R a <;> cases hQ : Q a <;> cases hp : p a <;> simp_all <;> omega

theorem length_filter_isSome_eq {α : Type} {l : List α} {D : α → Option Document} {g : α → Document → String} :
    (l.filterMap fun a => (D a).map (g a)).length = (l.filter fun a => (D a).isSome).length := by
  rw [List.length_filterMap_eq_countP, List.countP_eq_length_filter]
  simp

/-! ### Finding the files -/

def walkedFiles (fs : FileSystem) (exts : List String) (p : String) : List String :=
  (fs.walk p).filterMap (keptFile exts)

theorem walkedFiles_of_isFile {fs : FileSystem} (hfs : fs.WalksFileAlone) (exts : List String) {p : String}
    (h : fs.isFile p = true) : walkedFiles fs exts p = [] ∨ walkedFiles fs exts p = [p] := by
  rw [walkedFiles, hfs p h]
  by_cases he : hasExtension exts p = true <;> simp [keptFile, he]

/-- **The files `parse` finds**: for a lone argument that names a file, that file whatever its
extension; otherwise, argument by argument in order, the regular files each walk meets, in the
order met, that have one of the extensions asked for. -/
theorem findFiles_eq {fs : FileSystem} (hfs : fs.WalksFileAlone) (exts paths : List String) :
    (findFiles fs exts paths).1 =
      match paths with
      | [p] => if fs.isFile p then [p] else walkedFiles fs exts p
      | _ => paths.flatMap (walkedFiles fs exts) := by
  unfold findFiles walkedFiles
  dsimp only
  rw [List.filterMap_flatMap]
  rcases paths with _ | ⟨p, _ | ⟨q, r⟩⟩
  · rfl
  · -- a lone argument falls back on itself only when its walk keeps nothing
    simp only [List.flatMap_cons, List.flatMap_nil, List.append_nil]
    by_cases hf : fs.isFile p = true
    · rcases walkedFiles_of_isFile hfs exts hf with h | h <;> simp only [walkedFiles] at h <;> simp [h, hf]
    · cases hw : (fs.walk p).filterMap (keptFile exts) <;> simp [hf]
  · simp only
    split
    · rename_i h
      simp at h
    · rfl

/-- The walk failures `parse` reports: argument by argument in order, one for each step of its
walk that failed. -/
theorem findFiles_failures (fs : FileSystem) (exts paths : List String) :
    (findFiles fs exts paths).2 = paths.flatMap fun p => (fs.walk p).filterMap walkFailure := by
  simp only [findFiles, List.filterMap_flatMap]

/-! ### The account of every file -/

/-- **The account from the lists `parse` builds**: the lines of the files that parsed, in order,
and the read failures and faults, which between them number the files that did not parse. -/
theorem reports_of_lists {fs : FileSystem} {pretty : Bool} {files walkFailures readFailures faults : List String}
    (hcount : readFailures.length + faults.length = (files.filter fun f => (documentAt fs f).isNone).length) :
    let parsed := files.filterMap fun f => (documentAt fs f).map (jsonLine pretty f)
    let stdout := if parsed.isEmpty then none else some ("\n".intercalate parsed)
    let errors := walkFailures ++ readFailures ++ faults
    Reports fs pretty files walkFailures
      (if errors.isEmpty then ⟨0, stdout, none⟩
      else ⟨1, stdout, some ("\n".intercalate (errors ++ [failureMark ++ " Parsed " ++
        toString parsed.length ++ " GraphQL files; " ++ toString errors.length ++ " failed."]))⟩) := by
  intro parsed stdout errors
  have hnone : (files.filter fun f => (documentAt fs f).isNone) = [] ↔ ∀ f ∈ files, (documentAt fs f).isSome := by
    simp [List.filter_eq_nil_iff, Option.isSome_iff_ne_none]
  have hstdout : stdout = if parsed = [] then none else some ("\n".intercalate parsed) := by
    simp only [stdout, List.isEmpty_iff]
  split
  · rename_i hempty
    simp only [errors, List.isEmpty_iff, List.append_eq_nil_iff] at hempty
    obtain ⟨⟨hw, hr⟩, hq⟩ := hempty
    have hall : ∀ f ∈ files, (documentAt fs f).isSome := by
      rw [← hnone, ← List.length_eq_zero_iff, ← hcount, hr, hq]
      rfl
    refine ⟨⟨fun _ => ⟨hw, fun f hf => documentAt_isSome_iff.1 (hall f hf)⟩, fun _ => rfl⟩, hstdout, fun _ => rfl, ?_⟩
    intro h
    exact absurd rfl h
  · rename_i hempty
    refine ⟨⟨fun h => absurd h Nat.one_ne_zero, fun ⟨hw, hall⟩ => ?_⟩, hstdout, fun h => absurd h Nat.one_ne_zero,
      fun _ => ⟨rfl, readFailures ++ faults, ?_, ?_⟩⟩
    · have hfiles : (files.filter fun f => (documentAt fs f).isNone) = [] :=
        hnone.2 fun f hf => documentAt_isSome_iff.2 (hall f hf)
      have hz : readFailures.length + faults.length = 0 := by rw [hcount, hfiles]; rfl
      apply absurd _ hempty
      simp only [errors, List.isEmpty_iff, List.append_eq_nil_iff, hw, true_and]
      exact ⟨List.eq_nil_of_length_eq_zero (by omega), List.eq_nil_of_length_eq_zero (by omega)⟩
    · rw [List.length_append, hcount]
    · rw [show parsed.length = (files.filter fun f => (documentAt fs f).isSome).length from length_filter_isSome_eq]
      simp only [errors, List.append_assoc]
      rfl

/-- **`parse` reports every file.**  For every file system in which a walk from a regular file
meets that file alone, every list of paths and every list of extensions, `parse` gives the
account `Reports` of the files it finds and of the failures of its walks; it finds, for a lone
argument that names a file, that file, and otherwise the files of each walk in order that have
an extension asked for; and the walk failures it reports are those of each walk, in order. -/
theorem parse_reports_every_file (fs : FileSystem) (hfs : fs.WalksFileAlone) (pretty : Bool)
    (exts paths : List String) :
    Reports fs pretty (findFiles fs (exts.map trimDots) paths).1 (findFiles fs (exts.map trimDots) paths).2
        (runParse fs pretty exts paths) ∧
      (findFiles fs (exts.map trimDots) paths).1 =
        (match paths with
        | [p] => if fs.isFile p then [p] else walkedFiles fs (exts.map trimDots) p
        | _ => paths.flatMap (walkedFiles fs (exts.map trimDots))) ∧
      (findFiles fs (exts.map trimDots) paths).2 = paths.flatMap fun p => (fs.walk p).filterMap walkFailure := by
  refine ⟨?_, findFiles_eq hfs _ paths, findFiles_failures fs _ paths⟩
  unfold runParse
  generalize findFiles fs (exts.map trimDots) paths = found
  obtain ⟨files, walkFailures⟩ := found
  simp only [List.filterMap_map, List.filterMap_filterMap]
  generalize hR : List.filterMap _ files = readFailures
  generalize hQ : List.filterMap _ files = faults
  generalize hP : List.filterMap _ files = parsed
  have hparsed : parsed = files.filterMap fun f => (documentAt fs f).map (jsonLine pretty f) := by
    rw [← hP]
    congr 1
    funext f
    dsimp only [Function.comp_apply]
    unfold documentAt
    cases fs.readText f with
    | error e => rfl
    | ok text => cases hd : (Document.parse text).error <;> simp [parseOne, hd, jsonLine]
  have hcount : readFailures.length + faults.length = (files.filter fun f => (documentAt fs f).isNone).length := by
    rw [← hR, ← hQ]
    apply length_filterMap_add
    intro f _
    dsimp only [Function.comp_apply]
    unfold documentAt
    cases fs.readText f with
    | error e => rfl
    | ok text => cases hd : (Document.parse text).error <;> simp [parseOne, hd]
  subst hparsed
  exact reports_of_lists hcount

def oneQuery : FileSystem where
  readText p := if p = "q.graphql" then .ok "{ a }" else .error "No such file or directory (os error 2)"
  isFile p := p == "q.graphql"
  walk p := if p = "q.graphql" then [.ok (p, true)]
    else [.error ("IO error for operation on " ++ p ++ ": No such file or directory (os error 2)")]

theorem oneQuery_walksFileAlone : oneQuery.WalksFileAlone := by
  intro p h
  simp only [oneQuery, beq_iff_eq] at h ⊢
  rw [if_pos h, h]

theorem parse_reports_one_query :
    oneQuery.WalksFileAlone ∧
      (Reports oneQuery false (findFiles oneQuery [] ["q.graphql"]).1 (findFiles oneQuery [] ["q.graphql"]).2
          (runParse oneQuery false [] ["q.graphql"]) ∧
        (findFiles oneQuery [] ["q.graphql"]).1 =
          (if oneQuery.isFile "q.graphql" then ["q.graphql"] else walkedFiles oneQuery [] "q.graphql") ∧
        (findFiles oneQuery [] ["q.graphql"]).2 =
          ["q.graphql"].flatMap fun p => (oneQuery.walk p).filterMap walkFailure) :=
  ⟨oneQuery_walksFileAlone, parse_reports_every_file oneQuery oneQuery_walksFileAlone false [] ["q.graphql"]⟩

end Gql.Cli
