import UserDb.Base.Bytes
import UserDb.Base.Outcomes
import UserDb.Norx.Model
import UserDb.Norx.Validate
import UserDb.Norx.Calls
import UserDb.Norx.Format
import UserDb.Norx.RoundTrip
import UserDb.Norx.Storage
import UserDb.Norx.Transaction
import UserDb.Norx.Writers
import UserDb.Norx.Recovery
import UserDb.Norx.Unprivileged
import UserDb.Norx.Membership
import UserDb.Norx.Lockout
import UserDb.Base.LinkedList
import UserDb.Commonio.Database
import UserDb.Commonio.Invariant
import UserDb.Commonio.Merge
import UserDb.Commonio.Sort
import UserDb.Atoi.Strtoi
import UserDb.Commonio.Group
import UserDb.Commonio.Runs
import UserDb.Commonio.Close
import UserDb.Commonio.GroupSplit
import UserDb.Commonio.Records
import UserDb.Commonio.Session
import UserDb.Commonio.GroupSession
import UserDb.Commonio.Locks
import UserDb.Commonio.LockFile
import UserDb.Commonio.Content
import UserDb.Commonio.Passwd
import UserDb.Commonio.Shadow
import UserDb.Commonio.GroupFile
import UserDb.Programs.Gpasswd
import UserDb.Commonio.Tables
import UserDb.Commonio.Files
import UserDb.Programs.Setup
import UserDb.Programs.Conversion
import UserDb.Programs.Check
import UserDb.Commonio.Kept
import UserDb.Norx.Creation
import UserDb.Norx.Reload
import UserDb.Subid.Ranges
import UserDb.Commonio.Cursor
import UserDb.Commonio.Chain
import UserDb.Subid.Lookup
import UserDb.Subid.FreeRange
import UserDb.Subid.Deterministic
import UserDb.Subid.Remove
import UserDb.Subid.Assign
import UserDb.Programs.Usermod
import UserDb.Programs.Pwck
import UserDb.Programs.Grpck
import UserDb.Commonio.GroupParts
import UserDb.Base.Comparison
import UserDb.Commonio.Order
import UserDb.Ids.NewId
import UserDb.Ids.Specified
import UserDb.Subid.Queries
import UserDb.Programs.Walk
import UserDb.Programs.Newusers
import UserDb.Programs.Useradd
import UserDb.Programs.SubidAssignment
import UserDb.Programs.UsermodGroups
import UserDb.Programs.Userdel
import UserDb.Programs.PasswordLock
import UserDb.Login.Faillog
import UserDb.Login.Failure
import UserDb.Login.FaillogOptions
import UserDb.Login.FaillogEffect
import UserDb.Login.FaillogSelection
import UserDb.Atoi.Arguments
import UserDb.Login.Limits
import UserDb.Base.Fgets
import UserDb.Base.Text
import UserDb.Login.Suauth
import UserDb.Login.SuauthRules
import UserDb.Base.Exceptions
import UserDb.Login.Access
import UserDb.Login.AccessRules
import UserDb.Login.Getdef
import UserDb.Login.GetdefLines
import UserDb.Login.Porttime
import UserDb.Login.PorttimePeriods
import UserDb.Login.PorttimeLines
import UserDb.Homes.CopyTree
import UserDb.Homes.CopyTreeSpec
import UserDb.Homes.CopyTreeRun
import UserDb.Homes.CopyTreeCopy
import UserDb.Base.Paths
import UserDb.Homes.CopyTreeLaw
import UserDb.Base.KeyedLines
import UserDb.Defaults.Values
import UserDb.Defaults.Lines
import UserDb.Defaults.Consistency
import UserDb.Defaults.Rereading
import UserDb.Defaults.Kept
import UserDb.Defaults.Law
import UserDb.Defaults.Needs
import UserDb.Base.Saturation
import UserDb.Numbers.Adds
import UserDb.Login.Isexpired
import UserDb.Commonio.Gshadow
import UserDb.Base.Draws
import UserDb.Numbers.Random
import UserDb.Base.Upsert
import UserDb.Login.Environment
import UserDb.Base.Memory
import UserDb.Login.Salt
import UserDb.Login.SaltCost
import UserDb.Programs.ChpasswdSalt
import UserDb.Programs.Newidmap
import UserDb.Subid.Written
import UserDb.Subid.Grant
import UserDb.Subid.Holders
import UserDb.Subid.LibraryRuns
import UserDb.Programs.SubidIsolation
import UserDb.Base.Keyed
import UserDb.Base.Simulation
import UserDb.Norx.Directory
import UserDb.Norx.DirectoryCalls
import UserDb.Norx.Sessions
import UserDb.Norx.Logins
import UserDb.Base.Place
import UserDb.Commonio.Sheet
import UserDb.Commonio.SheetRuns
import UserDb.Base.References
import UserDb.Programs.Groups
import UserDb.Programs.GroupsEffect
import UserDb.Programs.GroupsWork
import UserDb.Programs.GroupsRuns
import UserDb.Base.LastWrite
import UserDb.Programs.Chgpasswd
import UserDb.Programs.ChgpasswdEffect
