import UserDb.Commonio.Files

/-! How a gshadow entry is put into a buffer of computed size, and that its text is read as the entry. -/
namespace UserDb.Commonio
open UserDb.Base

/-- An entry as the library has it; a list may be missing. -/
structure SgrpEntry where
  name : Bytes
  passwd : Bytes
  adm : Option (List Bytes)
  mem : Option (List Bytes)
  deriving DecidableEq, Repr

/-- What becomes of an entry that is to be written. -/
inductive PutOutcome where
  | refused
  | nullList
  | overflow
  | written (text : Bytes)
  deriving DecidableEq, Repr

/-- The places for the names of a list, with a separator each. -/
def listSize (list : Option (List Bytes)) : Nat := ((list.getD []).map fun user => user.length + 1).sum

/-- The size that `putsgent` computes. -/
def bufferSize (sg : SgrpEntry) : Nat := sg.name.length + sg.passwd.length + 10 + listSize sg.adm + listSize sg.mem

/-- The text in a buffer with one more string, where the string and its end have room. -/
def stpcpy (size : Nat) (text s : Bytes) : Option Bytes := if text.length + s.length + 1 ≤ size then some (text ++ s) else none

/-- The names of a list from the `i`-th one on. -/
def putUsers (size : Nat) : Nat → List Bytes → Bytes → Option Bytes
  | _, [], text => some text
  | i, user :: users, text =>
    (if 0 < i then stpcpy size text [comma] else some text).bind fun text =>
      (stpcpy size text user).bind (putUsers size (i + 1) users)

/-- The text in the buffer at the end. -/
def sgrpBuffer (size : Nat) (name passwd : Bytes) (adm mem : List Bytes) : Option Bytes := do
  let text ← stpcpy size [] name
  let text ← stpcpy size text [colon]
  let text ← stpcpy size text passwd
  let text ← stpcpy size text [colon]
  let text ← putUsers size 0 adm text
  let text ← stpcpy size text [colon]
  let text ← putUsers size 0 mem text
  stpcpy size text [newline]

/-- `putsgent`; `memory` tells whether the buffer is there and the text is taken. -/
def putsgentEntry (memory : Bool) (sg : SgrpEntry) : PutOutcome :=
  if !memory then .refused
  else
    match sg.adm,sg.mem with
    | some adm,some mem =>
      match sgrpBuffer (bufferSize sg) sg.name sg.passwd adm mem with
      | some text => .written text
      | none => .overflow
    | _,_ => .nullList

def gshadowPutEntry (memory : Bool) (sg : SgrpEntry) : PutOutcome :=
  if validField sg.name [colon,newline] == -1 || validField sg.passwd [colon,newline] == -1 then .refused
  else if (sg.adm.getD []).any fun name => validField name [comma,colon,newline] == -1 then .refused
  else if (sg.mem.getD []).any fun name => validField name [comma,colon,newline] == -1 then .refused
  else putsgentEntry memory sg

/-- The memory is there, and so are the fields, with characters that they may have. -/
structure SgrpEntry.Writable (memory : Bool) (entry : SgrpEntry) : Prop where
  memory : memory = true
  lists : entry.adm ≠ none ∧ entry.mem ≠ none
  name : validField entry.name [colon,newline] ≠ -1
  passwd : validField entry.passwd [colon,newline] ≠ -1
  users : ∀ users, entry.adm = some users ∨ entry.mem = some users → ∀ user ∈ users, validField user [comma,colon,newline] ≠ -1

/-- The text of a list from its `i`-th name on. -/
def usersText (i : Nat) (users : List Bytes) : Bytes :=
  if 0 < i then users.flatMap (comma :: ·) else [comma].intercalate users

section Buffer
variable {size i : Nat} {text s : Bytes} {users : List Bytes}

theorem stpcpy_eq (h : text.length + s.length + 1 ≤ size) : stpcpy size text s = some (text ++ s) := if_pos h

theorem usersText_cons (i : Nat) (user : Bytes) (users : List Bytes) :
    usersText i (user :: users) = (if 0 < i then [comma] else []) ++ user ++ usersText (i + 1) users := by
  have hjoin : [comma].intercalate (user :: users) = user ++ users.flatMap (comma :: ·) := by
    induction users generalizing user with
    | nil => simp
    | cons user' users ih =>
      rw [List.intercalate_cons_cons,ih,List.flatMap_cons]
      simp
  have hnext : usersText (i + 1) users = users.flatMap (comma :: ·) := if_pos (Nat.succ_pos i)
  rw [hnext]
  by_cases hi : 0 < i
  · rw [usersText,if_pos hi,if_pos hi,List.flatMap_cons]
    simp
  · rw [usersText,if_neg hi,if_neg hi,hjoin]
    rfl

/-- A list that has room is written with its separators. -/
theorem putUsers_eq (h : text.length + (usersText i users).length + 1 ≤ size) :
    putUsers size i users text = some (text ++ usersText i users) := by
  induction users generalizing i text with
  | nil =>
    have hnil : usersText i [] = [] := by
      unfold usersText
      split <;> rfl
    rw [putUsers,hnil,List.append_nil]
  | cons user users ih =>
    rw [usersText_cons] at h ⊢
    rw [List.length_append,List.length_append] at h
    have hsep : (if 0 < i then stpcpy size text [comma] else some text) = some (text ++ if 0 < i then [comma] else []) := by
      split
      · rename_i hi
        rw [if_pos hi,List.length_singleton] at h
        rw [stpcpy_eq]
        rw [List.length_singleton]
        omega
      · rw [List.append_nil]
    rw [putUsers,hsep,Option.bind_some,stpcpy_eq,Option.bind_some,ih]
    · simp
    · rw [List.length_append,List.length_append]
      omega
    · rw [List.length_append]
      omega

private theorem length_usersText (users : List Bytes) : (usersText 0 users).length ≤ listSize (some users) := by
  have hmore : ∀ users : List Bytes, (usersText 1 users).length = listSize (some users) := by
    intro users
    induction users with
    | nil => rfl
    | cons user users ih =>
      have hnext : usersText (1 + 1) users = usersText 1 users := rfl
      have hsize : listSize (some (user :: users)) = user.length + 1 + listSize (some users) := by simp [listSize]
      rw [usersText_cons,hnext,List.length_append,List.length_append,ih,hsize]
      simp
      omega
  cases users with
  | nil => exact Nat.zero_le _
  | cons user users =>
    have hsize : listSize (some (user :: users)) = user.length + 1 + listSize (some users) := by simp [listSize]
    have hrest := hmore users
    rw [usersText_cons,List.length_append,List.length_append,hsize,hrest]
    simp

end Buffer

section Entry
variable {memory : Bool} {sg : Sgrp} {name passwd text : Bytes} {adm mem : List Bytes}

def Sgrp.entry (sg : Sgrp) : SgrpEntry := ⟨sg.name,sg.passwd,some sg.adm,some sg.mem⟩

/-- The computed size has room for the line, its end and the end of the string. -/
theorem sgrpLine_fits (sg : Sgrp) : (sgrpLine sg ++ [newline]).length + 1 ≤ bufferSize sg.entry := by
  have hadm := length_usersText sg.adm
  have hmem := length_usersText sg.mem
  have hplain : ∀ users : List Bytes, usersText 0 users = [comma].intercalate users := fun _ => rfl
  rw [hplain] at hadm hmem
  have hline : (sgrpLine sg).length = sg.name.length + sg.passwd.length + ([comma].intercalate sg.adm).length +
      ([comma].intercalate sg.mem).length + 3 := by
    simp [sgrpLine]
    omega
  have hsize : bufferSize sg.entry =
      sg.name.length + sg.passwd.length + 10 + listSize (some sg.adm) + listSize (some sg.mem) := rfl
  rw [List.length_append,List.length_singleton,hline,hsize]
  omega

/-- What is put in the buffer is the line of the entry. -/
theorem sgrpBuffer_eq (sg : Sgrp) :
    sgrpBuffer (bufferSize sg.entry) sg.name sg.passwd sg.adm sg.mem = some (sgrpLine sg ++ [newline]) := by
  have hfits := sgrpLine_fits sg
  have hline : sgrpLine sg = sg.name ++ [colon] ++ sg.passwd ++ [colon] ++ usersText 0 sg.adm ++ [colon] ++ usersText 0 sg.mem := by
    have hplain : ∀ users : List Bytes, usersText 0 users = [comma].intercalate users := fun _ => rfl
    rw [hplain,hplain]
    simp [sgrpLine]
  rw [hline] at hfits ⊢
  simp only [List.length_append,List.length_singleton] at hfits
  unfold sgrpBuffer
  simp only [Option.bind_eq_bind]
  rw [stpcpy_eq (by rw [List.length_nil]; omega),Option.bind_some,List.nil_append]
  rw [stpcpy_eq (by simp only [List.length_singleton]; omega),Option.bind_some]
  rw [stpcpy_eq (by simp only [List.length_append,List.length_singleton]; omega),Option.bind_some]
  rw [stpcpy_eq (by simp only [List.length_append,List.length_singleton]; omega),Option.bind_some]
  rw [putUsers_eq (by simp only [List.length_append,List.length_singleton]; omega),Option.bind_some]
  rw [stpcpy_eq (by simp only [List.length_append,List.length_singleton]; omega),Option.bind_some]
  rw [putUsers_eq (by simp only [List.length_append,List.length_singleton]; omega),Option.bind_some]
  rw [stpcpy_eq (by simp only [List.length_append,List.length_singleton]; omega)]

/-- With both lists the buffer makes no difference. -/
theorem gshadowPutEntry_entry (memory : Bool) (sg : Sgrp) :
    gshadowPutEntry memory sg.entry = ((gshadowPut memory sg).map .written).getD .refused := by
  unfold gshadowPutEntry gshadowPut
  have hput : putsgentEntry memory sg.entry = ((putsgent memory sg).map .written).getD .refused := by
    unfold putsgentEntry putsgent
    cases memory with
    | false => rfl
    | true =>
      have hbuffer := sgrpBuffer_eq sg
      simp only [Sgrp.entry] at hbuffer ⊢
      simp [hbuffer]
  have hlists : sg.entry.adm.getD [] = sg.adm ∧ sg.entry.mem.getD [] = sg.mem := ⟨rfl,rfl⟩
  have hfields : sg.entry.name = sg.name ∧ sg.entry.passwd = sg.passwd := ⟨rfl,rfl⟩
  rw [hlists.1,hlists.2,hfields.1,hfields.2,hput]
  split_ifs <;> rfl

/-- An entry without one of its lists is refused, or the list that is not there is read. -/
theorem gshadowPutEntry_cases (memory : Bool) (entry : SgrpEntry) :
    gshadowPutEntry memory entry = .refused ∨ gshadowPutEntry memory entry = .nullList ∨ ∃ sg : Sgrp, entry = sg.entry := by
  obtain ⟨name,passwd,adm,mem⟩ := entry
  cases adm with
  | none =>
    unfold gshadowPutEntry putsgentEntry
    split_ifs <;> simp
  | some adm =>
    cases mem with
    | none =>
      unfold gshadowPutEntry putsgentEntry
      split_ifs <;> simp
    | some mem => exact .inr (.inr ⟨⟨name,passwd,adm,mem⟩,rfl⟩)

private theorem gshadowPutEntry_written (h : gshadowPutEntry memory sg.entry = .written text) : gshadowPut memory sg = some text := by
  rw [gshadowPutEntry_entry] at h
  cases hput : gshadowPut memory sg with
  | none =>
    rw [hput] at h
    cases h
  | some bytes =>
    rw [hput] at h
    cases h
    rfl

/-- The line of an entry that was accepted is read as the entry. -/
theorem sgetsgent_sgrpLine (h : gshadowPut memory sg = some text) (hnames : ∀ user, user ∈ sg.adm ∨ user ∈ sg.mem → user ≠ []) :
    newline ∉ sgrpLine sg ∧ sgetsgent (sgrpLine sg ++ [newline]) = some sg := by
  obtain ⟨_,hsep,hadmComma,hmemComma⟩ := gshadowPut_clean h
  obtain ⟨hline,hsplit,_⟩ := fieldsLine_spec hsep (List.cons_ne_nil _ _)
  have htake : (sgrpLine sg ++ [newline]).takeWhile (· != newline) = sgrpLine sg := by
    rw [List.takeWhile_append_of_pos fun b hb => by simpa using ne_of_mem_of_not_mem hb hline]
    simp
  refine ⟨hline,?_⟩
  rw [sgetsgent,htake,sgrpLine,hsplit]
  simp only
  rw [memberList_intercalate fun user hu => ⟨hnames user (.inl hu),hadmComma user hu⟩,
    memberList_intercalate fun user hu => ⟨hnames user (.inr hu),hmemComma user hu⟩]

end Entry

section Written
variable {memory : Bool} {entry : SgrpEntry}

/-- What passes the checks is written, and nothing else. -/
theorem exists_written_iff : (∃ text, gshadowPutEntry memory entry = .written text) ↔ entry.Writable memory := by
  constructor
  · rintro ⟨text,h⟩
    rcases gshadowPutEntry_cases memory entry with hrefused | hnull | ⟨sg,rfl⟩
    · rw [hrefused] at h
      cases h
    · rw [hnull] at h
      cases h
    · unfold gshadowPutEntry at h
      split_ifs at h with hfields hadm hmem
      rw [Bool.or_eq_true,not_or,beq_iff_eq,beq_iff_eq] at hfields
      refine ⟨?_,⟨Option.some_ne_none _,Option.some_ne_none _⟩,hfields.1,hfields.2,?_⟩
      · cases memory with
        | false => cases h
        | true => rfl
      · rintro users (husers | husers) user huser hbad
        · cases husers
          exact hadm (List.any_eq_true.mpr ⟨user,huser,beq_iff_eq.mpr hbad⟩)
        · cases husers
          exact hmem (List.any_eq_true.mpr ⟨user,huser,beq_iff_eq.mpr hbad⟩)
  · rintro ⟨rfl,⟨hadm,hmem⟩,hname,hpasswd,husers⟩
    obtain ⟨name,passwd,adm,mem⟩ := entry
    obtain ⟨adm,rfl⟩ := Option.ne_none_iff_exists'.mp hadm
    obtain ⟨mem,rfl⟩ := Option.ne_none_iff_exists'.mp hmem
    have hbad : ∀ users : List Bytes, (∀ user ∈ users, validField user [comma,colon,newline] ≠ -1) →
        ¬ (users.any fun name => validField name [comma,colon,newline] == -1) = true := by
      intro users hgood hany
      obtain ⟨user,huser,hbad⟩ := List.any_eq_true.mp hany
      exact hgood user huser (beq_iff_eq.mp hbad)
    have hput : gshadowPut true ⟨name,passwd,adm,mem⟩ = some (sgrpLine ⟨name,passwd,adm,mem⟩ ++ [newline]) := by
      unfold gshadowPut
      rw [if_neg (by simp [hname,hpasswd]),if_neg (hbad adm (husers adm (.inl rfl))),if_neg (hbad mem (husers mem (.inr rfl)))]
      rfl
    refine ⟨sgrpLine ⟨name,passwd,adm,mem⟩ ++ [newline],?_⟩
    exact (gshadowPutEntry_entry true ⟨name,passwd,adm,mem⟩).trans (by rw [hput]; rfl)

end Written

/-- No entry overflows its buffer, what passes the checks is written, and what is written is one line that is read as
the entry. -/
theorem gshadow_lossless (memory : Bool) (entry : SgrpEntry)
    (hnames : ∀ users, entry.adm = some users ∨ entry.mem = some users → [] ∉ users) :
    gshadowPutEntry memory entry ≠ .overflow ∧ ((∃ text, gshadowPutEntry memory entry = .written text) ↔ entry.Writable memory) ∧
      ∀ text, gshadowPutEntry memory entry = .written text →
        text.length + 1 ≤ bufferSize entry ∧ (∃ line, text = line ++ [newline] ∧ newline ∉ line) ∧
          ∃ sg, sgetsgent text = some sg ∧ sg.name = entry.name ∧ sg.passwd = entry.passwd ∧ some sg.adm = entry.adm ∧
            some sg.mem = entry.mem := by
  refine ⟨?_,exists_written_iff,?_⟩
  · rcases gshadowPutEntry_cases memory entry with h | h | ⟨sg,rfl⟩
    · rw [h]
      exact nofun
    · rw [h]
      exact nofun
    · rw [gshadowPutEntry_entry]
      cases gshadowPut memory sg <;> exact nofun
  · intro text htext
    rcases gshadowPutEntry_cases memory entry with h | h | ⟨sg,rfl⟩
    · rw [h] at htext
      cases htext
    · rw [h] at htext
      cases htext
    · have hput := gshadowPutEntry_written htext
      obtain ⟨rfl,_⟩ := gshadowPut_clean hput
      have huser : ∀ user, user ∈ sg.adm ∨ user ∈ sg.mem → user ≠ [] := by
        rintro user (hu | hu) rfl
        · exact hnames sg.adm (.inl rfl) hu
        · exact hnames sg.mem (.inr rfl) hu
      obtain ⟨hline,hread⟩ := sgetsgent_sgrpLine hput huser
      exact ⟨sgrpLine_fits sg,⟨_,rfl,hline⟩,sg,hread,rfl,rfl,rfl,rfl⟩

/-- A group with an administrator and two members. -/
def staffEntry : SgrpEntry := ⟨ascii "staff",ascii "!",some [ascii "root"],some [ascii "ann",ascii "bo"]⟩

theorem gshadow_lossless_staff : ∃ text, gshadowPutEntry true staffEntry = .written text ∧
    text = ascii "staff:!:root:ann,bo\n" ∧ sgetsgent text = some ⟨ascii "staff",ascii "!",[ascii "root"],[ascii "ann",ascii "bo"]⟩ := by
  have hnames : ∀ users, staffEntry.adm = some users ∨ staffEntry.mem = some users → [] ∉ users := by
    rintro users (h | h)
    · exact Option.some.inj h ▸ (by decide +kernel : [] ∉ [ascii "root"])
    · exact Option.some.inj h ▸ (by decide +kernel : [] ∉ [ascii "ann",ascii "bo"])
  obtain ⟨_,hwritten,hread⟩ := gshadow_lossless true staffEntry hnames
  have hwritable : staffEntry.Writable true := by
    refine ⟨rfl,⟨Option.some_ne_none _,Option.some_ne_none _⟩,by decide +kernel,by decide +kernel,?_⟩
    rintro users (h | h)
    · exact Option.some.inj h ▸ (by decide +kernel : ∀ user ∈ [ascii "root"], validField user [comma,colon,newline] ≠ -1)
    · exact Option.some.inj h ▸ (by decide +kernel : ∀ user ∈ [ascii "ann",ascii "bo"], validField user [comma,colon,newline] ≠ -1)
  obtain ⟨text,htext⟩ := hwritten.mpr hwritable
  obtain ⟨_,_,⟨name,passwd,adm,mem⟩,hsg,rfl,rfl,hadm,hmem⟩ := hread text htext
  obtain rfl := Option.some.inj hadm
  obtain rfl := Option.some.inj hmem
  have hline : gshadowPutEntry true staffEntry = .written (ascii "staff:!:root:ann,bo\n") := by decide +kernel
  exact ⟨text,htext,PutOutcome.written.inj (htext.symm.trans hline),hsg⟩

end UserDb.Commonio
